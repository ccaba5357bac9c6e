import Rcllean.ParameterHistory

/-!
# Requests to set parameters

A batch over the wire is set at once, all or nothing, or one parameter after
the other. Where the callbacks only judge and nothing comes between, a call
takes the store from one state to the next in one go, and the two services can
be compared.
-/
namespace ParameterRequests

open Parameters ParamOverrides ParameterStore WaitSets Runs Function

/-- Callbacks that do nothing but judge, in the order in which they were registered. -/
abbrev Callbacks := List (List Parameter → SetResult)

/-! ## At once -/

def write (s : Store) (p : Parameter) : Store :=
  (if s.has p.name then s else s.push p.name).insert p

def setAtomically (callbacks : Callbacks) (s : Store) (updates : List (String × ParameterValue)) :
    Store × SetResult :=
  match s.propose updates with
  | .error e => (s, .refuse e)
  | .ok proposed => match callbacks.find? fun cb => !(cb proposed).successful with
    | some cb => (s, cb proposed)
    | none => (proposed.foldl write s, .ok)

/-- `rcl_interfaces/msg/Parameter`. -/
structure WireParameter where
  name : String
  value : WireValue

def WireParameter.update (p : WireParameter) : String × ParameterValue :=
  (p.name, ParameterValue.ofWire p.value)

def Accepts (callbacks : Callbacks) (ps : List Parameter) : Prop :=
  ∀ cb ∈ callbacks, (cb ps).successful = true

theorem find_eq_none_iff {callbacks : Callbacks} {ps : List Parameter} :
    (callbacks.find? fun cb => !(cb ps).successful) = none ↔ Accepts callbacks ps := by
  simp [Accepts, List.find?_eq_none]

/-- A batch that is accepted is written, -/
theorem setAtomically_accepted {callbacks : Callbacks} {s : Store}
    {updates : List (String × ParameterValue)} {proposed : List Parameter}
    (hpropose : s.propose updates = .ok proposed) (haccepts : Accepts callbacks proposed) :
    setAtomically callbacks s updates = (proposed.foldl write s, .ok) := by
  simp only [setAtomically, hpropose, find_eq_none_iff.mpr haccepts]

/-- Each parameter stands under its own name. -/
def Own (s : Store) : Prop := ∀ name p, s.params name = some p → p.name = name

theorem params_write (s : Store) (p : Parameter) :
    (write s p).params = update s.params p.name (some p) := by
  unfold write
  split <;> rfl

theorem Own.write {s : Store} (hs : Own s) (p : Parameter) : Own (write s p) := by
  intro name q hq
  rw [params_write] at hq
  by_cases hname : name = p.name
  · subst hname
    obtain rfl : p = q := by simpa using hq
    rfl
  · rw [update_of_ne hname] at hq
    exact hs name q hq

/-- The verdict of the callback whose turn it is. -/
def Judged (callbacks : Callbacks) (result : Except String SetResult) : Pc → Prop
  | .consulting _ _ proposed (cb :: _) =>
    ∃ judge, callbacks[cb]? = some judge ∧ result = .ok (judge proposed)
  | _ => False

/-- The moves of a call that nothing comes between and that does not raise when it is all but over;
that its announcement is heard is not required. -/
def Uninterrupted (callbacks : Callbacks) (c : Nat) (s : Sys) : Move → Prop
  | .go d => d = c
  | .publishFails d raised => d = c ∧ raised = none
  | .verdict d result => d = c ∧ Judged callbacks result (s.pc c)
  | _ => False

/-- Where a call has come to that is to bring the store `before` to the result `r`. -/
def Serves (callbacks : Callbacks) (before : Store) (updates : List (String × ParameterValue))
    (r : Store × SetResult) (s : Store) : Pc → Prop
  | .checked _ _ proposed => s = before ∧ before.propose updates = .ok proposed
  | .consulting _ _ proposed left => s = before ∧ before.propose updates = .ok proposed ∧
      ∃ n, left = List.range' n (callbacks.length - n) ∧
        (callbacks.find? fun cb => !(cb proposed).successful) =
          (callbacks.drop n).find? fun cb => !(cb proposed).successful
  | .writing _ _ todo => r.2 = .ok ∧ todo.foldl write s = r.1
  | .pushing _ _ p todo => r.2 = .ok ∧ s.has p.name = false ∧ todo.foldl write (write s p) = r.1
  | .storing _ _ p todo => r.2 = .ok ∧ todo.foldl write (s.insert p) = r.1
  | .reading _ => r.2 = .ok ∧ s = r.1
  | .publishing outcome _ | .returned outcome => outcome = .set r.2 ∧ s = r.1
  | _ => False

section

variable {callbacks : Callbacks} {before : Store} {updates : List (String × ParameterValue)}
  {s t : Sys} {c : Nat}

theorem begin_serves (callbacks : Callbacks) (s : Store) (announce : Bool)
    (updates : List (String × ParameterValue)) :
    Serves callbacks s updates (setAtomically callbacks s updates) s
      (begin s (.set announce updates)) := by
  cases hpropose : s.propose updates with
  | error e => simp only [begin, setAtomically, hpropose, Serves, and_self]
  | ok proposed => simp only [begin, hpropose, Serves, and_self]

theorem written_serves {r : Store × SetResult} {s : Store} {todo : List Parameter}
    (hr : r.2 = .ok) (hstore : todo.foldl write s = r.1) (announce : Bool)
    (updates' : List (String × ParameterValue)) :
    Serves callbacks before updates r s (written s announce updates' todo) := by
  cases todo with
  | nil => cases announce with
    | true => exact ⟨hr, hstore⟩
    | false => exact ⟨by rw [hr], hstore⟩
  | cons p todo =>
    cases hhas : s.has p.name with
    | true =>
      rw [written, if_pos hhas]
      rw [List.foldl_cons, write, if_pos hhas] at hstore
      exact ⟨hr, hstore⟩
    | false =>
      rw [written, if_neg (by simp [hhas])]
      exact ⟨hr, hhas, hstore⟩

/-- The first of the callbacks left, and those after it. -/
theorem range'_eq_cons {callbacks : Callbacks} {n cb : Nat} {left : List Nat}
    (h : cb :: left = List.range' n (callbacks.length - n)) :
    cb = n ∧ left = List.range' (n + 1) (callbacks.length - (n + 1)) := by
  obtain ⟨rfl, -, hrest⟩ := List.range'_eq_cons_iff.mp h.symm
  exact ⟨rfl, by rw [hrest, Nat.sub_sub]⟩

theorem drop_of_getElem? {callbacks : Callbacks} {n : Nat} {judge : List Parameter → SetResult}
    (h : callbacks[n]? = some judge) : callbacks.drop n = judge :: callbacks.drop (n + 1) := by
  obtain ⟨hlt, rfl⟩ := List.getElem?_eq_some_iff.mp h
  exact List.drop_eq_getElem_cons hlt

theorem step_serves {m : Move} (honSet : callbacks.length = before.onSet)
    (h : Serves callbacks before updates (setAtomically callbacks before updates) s.store (s.pc c))
    (hm : Uninterrupted callbacks c s m) (hs : step s m = some t) :
    Serves callbacks before updates (setAtomically callbacks before updates) t.store (t.pc c) := by
  cases step_cases hs with
  | call | addOnSetCallback => cases hm
  | inserting hpc | listing hpc | erasing hpc | forgetting hpc =>
    obtain rfl := hm
    rw [hpc] at h
    cases h
  | @checked d announce updates' proposed hpc =>
    obtain rfl := hm
    rw [hpc] at h
    obtain ⟨hstore, hpropose⟩ := h
    rw [setPc_pc_self]
    refine ⟨hstore, hpropose, 0, ?_, rfl⟩
    rw [hstore, ← honSet, List.range_eq_range']
    rfl
  | @accepted d announce updates' proposed hpc =>
    obtain rfl := hm
    rw [hpc] at h
    obtain ⟨hstore, hpropose, n, hleft, hfind⟩ := h
    have hdone : callbacks.drop n = [] := by
      have hlength := congrArg List.length hleft
      rw [List.length_range', List.length_nil] at hlength
      exact List.drop_eq_nil_of_le (by omega)
    rw [hdone, List.find?_nil] at hfind
    rw [setPc_pc_self, setPc_store, hstore,
      setAtomically_accepted hpropose (find_eq_none_iff.mp hfind)]
    exact ⟨rfl, rfl⟩
  | @writing d announce updates' todo hpc =>
    obtain rfl := hm
    rw [hpc] at h
    rw [setPc_pc_self, setPc_store]
    exact written_serves h.1 h.2 announce updates'
  | @pushing d announce updates' p todo hpc =>
    obtain rfl := hm
    rw [hpc] at h
    obtain ⟨hr, hhas, hstore⟩ := h
    rw [write, hhas] at hstore
    rw [setPc_pc_self]
    exact ⟨hr, hstore⟩
  | storing hpc | publishing hpc =>
    obtain rfl := hm
    rw [hpc] at h
    rw [setPc_pc_self]
    exact h
  | unheard hpc =>
    obtain ⟨rfl, -⟩ := hm
    rw [hpc] at h
    rw [setPc_pc_self]
    exact h
  | unannounced hpc => cases hm.2
  | silent hpc | reading hpc =>
    obtain rfl := hm
    rw [hpc] at h
    rw [setPc_pc_self]
    exact ⟨by rw [h.1], h.2⟩
  | @agreed d announce updates' proposed cb left verdict hpc hagrees =>
    obtain ⟨rfl, hjudged⟩ := hm
    rw [hpc] at h hjudged
    obtain ⟨judge, hjudge, heq⟩ := hjudged
    obtain rfl := Except.ok.inj heq
    obtain ⟨hstore, hpropose, n, hleft, hfind⟩ := h
    obtain ⟨rfl, hrest⟩ := range'_eq_cons hleft
    rw [setPc_pc_self]
    refine ⟨hstore, hpropose, cb + 1, hrest, ?_⟩
    rw [hfind, drop_of_getElem? hjudge, List.find?_cons_of_neg (by simp [hagrees])]
  | @refused d announce updates' proposed cb left verdict hpc hrefuses =>
    obtain ⟨rfl, hjudged⟩ := hm
    rw [hpc] at h hjudged
    obtain ⟨judge, hjudge, heq⟩ := hjudged
    obtain rfl := Except.ok.inj heq
    obtain ⟨hstore, hpropose, n, hleft, hfind⟩ := h
    obtain ⟨rfl, hrest⟩ := range'_eq_cons hleft
    rw [drop_of_getElem? hjudge, List.find?_cons_of_pos (by simp [hrefuses])] at hfind
    rw [setPc_pc_self, setPc_store, hstore]
    simp only [setAtomically, hpropose, hfind]
    exact ⟨rfl, rfl⟩
  | raised hpc =>
    obtain ⟨rfl, hjudged⟩ := hm
    rw [hpc] at hjudged
    obtain ⟨judge, -, heq⟩ := hjudged
    cases heq

/-- The steps a call has left, as far as its variables say. -/
def stepsLeft (onSet : Nat) : Pc → Nat
  | .checked _ _ proposed => onSet + 3 * proposed.length + 7
  | .consulting _ _ proposed left => left.length + 3 * proposed.length + 6
  | .writing _ _ todo => 3 * todo.length + 5
  | .pushing _ _ _ todo => 3 * todo.length + 7
  | .storing _ _ _ todo => 3 * todo.length + 6
  | .reading _ => 3
  | .publishing .. => 2
  | _ => 0

def Returned (c : Nat) (s : Sys) : Prop := ∃ outcome, s.pc c = .returned outcome

/-- Until it has returned, the call or the callback whose turn it is can go on. -/
theorem can_serve (honSet : callbacks.length = before.onSet)
    (h : Serves callbacks before updates (setAtomically callbacks before updates) s.store (s.pc c))
    (hnot : ¬ Returned c s) : ∃ m t, Uninterrupted callbacks c s m ∧ step s m = some t ∧
      stepsLeft before.onSet (t.pc c) + 1 ≤ stepsLeft before.onSet (s.pc c) := by
  cases hpc : s.pc c with
  | returned outcome => exact absurd ⟨outcome, hpc⟩ hnot
  | idle | inserting | listing | erasing | forgetting =>
    rw [hpc] at h
    cases h
  | checked announce updates' proposed =>
    rw [hpc] at h
    refine ⟨.go c, _, rfl, by simp only [step, go, hpc]; rfl, ?_⟩
    rw [setPc_pc_self, h.1]
    simp only [stepsLeft, List.length_range]
    omega
  | consulting announce updates' proposed left =>
    rw [hpc] at h
    cases left with
    | nil =>
      refine ⟨.go c, _, rfl, by simp only [step, go, hpc]; rfl, ?_⟩
      rw [setPc_pc_self]
      simp only [stepsLeft, List.length_nil]
      omega
    | cons cb left =>
      obtain ⟨-, -, n, hleft, -⟩ := h
      have hlt : cb < callbacks.length := by
        have hmem := hleft ▸ List.mem_cons_self (a := cb) (l := left)
        rw [List.mem_range'_1] at hmem
        omega
      refine ⟨.verdict c (.ok (callbacks[cb] proposed)), _, ⟨rfl, ?_⟩,
        by simp only [step, hpc]; rfl, ?_⟩
      · rw [hpc]
        exact ⟨callbacks[cb], List.getElem?_eq_getElem hlt, rfl⟩
      · rw [setPc_pc_self]
        split <;> simp only [stepsLeft, List.length_cons] <;> omega
  | writing announce updates' todo =>
    refine ⟨.go c, s.setPc c (written s.store announce updates' todo), rfl, ?_, ?_⟩
    · cases todo <;> simp only [step, go, hpc] <;> rfl
    · rw [setPc_pc_self]
      cases todo with
      | nil => cases announce <;> simp [written, stepsLeft]
      | cons p todo => cases hhas : s.store.has p.name <;> simp [written, hhas, stepsLeft] <;> omega
  | pushing announce updates' p todo =>
    refine ⟨.go c, _, rfl, by simp only [step, go, hpc]; rfl, ?_⟩
    rw [setPc_pc_self]
    simp only [stepsLeft]
    omega
  | storing announce updates' p todo =>
    refine ⟨.go c, _, rfl, by simp only [step, go, hpc]; rfl, ?_⟩
    rw [setPc_pc_self]
    simp only [stepsLeft]
    omega
  | reading updates' =>
    refine ⟨.go c, _, rfl, by simp only [step, go, hpc]; rfl, ?_⟩
    rw [setPc_pc_self]
    split <;> simp [stepsLeft]
  | publishing outcome event =>
    refine ⟨.go c, _, rfl, by simp only [step, go, hpc]; rfl, ?_⟩
    rw [setPc_pc_self]
    simp [stepsLeft]

/-- Where nothing comes between, a call that sets a batch returns, and whenever it has returned it
has done to the store, and answers, what setting the batch at once comes to. -/
theorem served_at_once (honSet : callbacks.length = s.store.onSet) (hidle : s.pc c = .idle)
    (announce : Bool) (updates : List (String × ParameterValue)) :
    (∃ ms t, Throughout step (Uninterrupted callbacks c)
        (s.setPc c (begin s.store (.set announce updates))) ms ∧
      run step s (.call c (.set announce updates) :: ms) = some t ∧ Returned c t) ∧
    ∀ ms t outcome, Throughout step (Uninterrupted callbacks c)
        (s.setPc c (begin s.store (.set announce updates))) ms →
      run step s (.call c (.set announce updates) :: ms) = some t →
      t.pc c = .returned outcome →
      outcome = .set (setAtomically callbacks s.store updates).2 ∧
        t.store = (setAtomically callbacks s.store updates).1 := by
  have hcall : step s (.call c (.set announce updates)) =
      some (s.setPc c (begin s.store (.set announce updates))) := by
    simp only [step, hidle]
  have hstart : Serves callbacks s.store updates (setAtomically callbacks s.store updates)
      (s.setPc c (begin s.store (.set announce updates))).store
      ((s.setPc c (begin s.store (.set announce updates))).pc c) := by
    rw [setPc_pc_self, setPc_store]
    exact begin_serves callbacks s.store announce updates
  constructor
  · obtain ⟨ms, t, hall, ht, hend⟩ := exists_run_of_measure
      (fun _ _ _ h hm hs => step_serves honSet h hm hs)
      (fun _ h hnot => can_serve honSet h hnot) hstart
    exact ⟨ms, t, hall, by rw [run_cons, hcall]; exact ht, hend⟩
  · intro ms t outcome hall ht hpc
    rw [run_cons, hcall, Option.bind_some] at ht
    have hserves := run_invariant_of_throughout (fun _ _ _ h hm hs => step_serves honSet h hm hs)
      hstart hall ht
    rw [hpc] at hserves
    exact hserves

end

/-- A callback that looks at the numbers one by one. -/
def notNegative (ps : List Parameter) : SetResult :=
  if ps.all fun p => match p.value with
    | .integer n => 0 ≤ n
    | _ => true
  then .ok else .refuse "negative"

/-- The callback refuses the second number. -/
theorem served_at_once_refused : ∃ s, run step (start openStore) [.addOnSetCallback] = some s ∧
    ∃ ms t, run step s (.call 0 (.set true [("near", .integer 3), ("far", .integer (-1))]) :: ms) =
        some t ∧ t.pc 0 = .returned (.set (.refuse "negative")) ∧ t.store = s.store := by
  obtain ⟨s, hs, hidle, honSet, hset⟩ : ∃ s,
      run step (start openStore) [.addOnSetCallback] = some s ∧ s.pc 0 = .idle ∧
      s.store.onSet = 1 ∧ setAtomically [notNegative] s.store
        [("near", .integer 3), ("far", .integer (-1))] = (s.store, .refuse "negative") :=
    ⟨_, rfl, rfl, rfl, rfl⟩
  have hlength : [notNegative].length = s.store.onSet := honSet.symm
  obtain ⟨⟨ms, t, hall, ht, outcome, hpc⟩, hdone⟩ := served_at_once hlength hidle true
    [("near", .integer 3), ("far", .integer (-1))]
  obtain ⟨hout, hstore⟩ := hdone ms t outcome hall ht hpc
  rw [hset] at hout hstore
  exact ⟨s, hs, ms, t, ht, by rw [hpc, hout], hstore⟩

/-! ## Both ways -/

end ParameterRequests
