import Mathlib.Data.List.Nodup
import Mathlib.Data.List.Perm.Basic
import Mathlib.Logic.Function.Basic
import Rcllean.Runs

/-!
# Service clients and their futures

A call sends a request and registers a future under the request's number, in
two steps other threads may come between. The executor takes responses and
completes the future registered under the number a response carries, later
and possibly elsewhere. Responses arrive in any order, repeated or stray.
-/
namespace Client

open Runs Function

variable {α : Type}

/-- A future: its value once there, and the callbacks to run then. -/
structure Future (α : Type) where
  value : Option (Except String α) := none
  callbacks : List Nat := []

/-- Supply the value, giving back the callbacks to run; a second completion is ignored. -/
def Future.complete (f : Future α) (v : Except String α) : List Nat × Future α :=
  if f.value.isSome then ([], f) else (f.callbacks, { value := some v })

/-- Register a callback, or give back the value it is to run with now. -/
def Future.onComplete (f : Future α) (cb : Nat) : Option (Except String α) × Future α :=
  match f.value with
  | some v => (some v, f)
  | none => (none, { f with callbacks := f.callbacks ++ [cb] })

/-- The client, its callers and the completions not yet run. -/
structure State (α : Type) where
  /-- Requests sent but not answered: the number and the future waiting for it. -/
  pending : List (Int64 × Nat)
  futures : Nat → Future α
  nextFuture : Nat
  /-- Numbers of the calls between their send and their registration. -/
  calling : List Int64
  /-- Every number a send has returned. -/
  sent : List Int64
  /-- The number under which the call that returned a future was sent. -/
  numberOf : Nat → Option Int64
  /-- Completions handed to dispatch: the future, and the response with its number. -/
  actions : List (Nat × Int64 × α)
  /-- Completions that have run, the latest last. -/
  completions : List (Nat × Int64 × α)

def fresh : State α where
  pending := []
  futures := fun _ => {}
  nextFuture := 0
  calling := []
  sent := []
  numberOf := fun _ => none
  actions := []
  completions := []

inductive Move (α : Type) where
  | send (seq : Int64)
  | register (seq : Int64)
  | take (response : Option (Int64 × α))
  | runAction (i : Nat)
  | fail (f : Nat) (message : String)
  | onComplete (f : Nat) (cb : Nat)

/-- The second half of `call`: make the future and register it under the number sent. -/
def register (s : State α) (seq : Int64) : State α where
  pending := s.pending ++ [(seq, s.nextFuture)]
  futures := update s.futures s.nextFuture {}
  nextFuture := s.nextFuture + 1
  calling := s.calling.erase seq
  sent := s.sent
  numberOf := update s.numberOf s.nextFuture (some seq)
  actions := s.actions
  completions := s.completions

/-- Take a response: the entries under its number go, and the first of them is completed later. -/
def takeResponse (s : State α) (seq : Int64) (resp : α) : State α :=
  let waiting := (s.pending.find? (·.1 == seq)).map (·.2)
  let taken := { s with pending := s.pending.filter (·.1 != seq) }
  match waiting with
  | none => taken
  | some fut => { taken with actions := s.actions ++ [(fut, seq, resp)] }

/-- One step of some thread. A send returns a number no send has returned before. -/
def step (s : State α) : Move α → Option (State α)
  | .send seq =>
    if seq ∈ s.sent then none
    else some { s with calling := s.calling ++ [seq], sent := s.sent ++ [seq] }
  | .register seq => if seq ∈ s.calling then some (register s seq) else none
  | .take none => some s
  | .take (some (seq, resp)) => some (takeResponse s seq resp)
  | .runAction i => match s.actions[i]? with
    | none => none
    | some (fut, seq, resp) => some { s with
        actions := s.actions.eraseIdx i
        futures := update s.futures fut ((s.futures fut).complete (.ok resp)).2
        completions := s.completions ++ [(fut, seq, resp)] }
  | .fail f message =>
    some { s with futures := update s.futures f ((s.futures f).complete (.error message)).2 }
  | .onComplete f cb =>
    some { s with futures := update s.futures f ((s.futures f).onComplete cb).2 }

/-- Every future is in one place at a time: waiting, about to be completed, or completed. -/
def places (s : State α) : List Nat :=
  s.pending.map Prod.snd ++ (s.actions.map Prod.fst ++ s.completions.map Prod.fst)

structure Inv (s : State α) : Prop where
  pending_nodup : (s.pending.map Prod.fst).Nodup
  calling_nodup : s.calling.Nodup
  pending_sent : ∀ p ∈ s.pending, p.1 ∈ s.sent
  calling_sent : ∀ seq ∈ s.calling, seq ∈ s.sent
  calling_pending : ∀ p ∈ s.pending, p.1 ∉ s.calling
  places_nodup : (places s).Nodup
  places_lt : ∀ f ∈ places s, f < s.nextFuture
  pending_number : ∀ p ∈ s.pending, s.numberOf p.2 = some p.1
  action_number : ∀ p ∈ s.actions, s.numberOf p.1 = some p.2.1
  completion_number : ∀ p ∈ s.completions, s.numberOf p.1 = some p.2.1
  value_completed : ∀ f resp, (s.futures f).value = some (.ok resp) →
    ∃ seq, (f, seq, resp) ∈ s.completions

theorem fresh_inv : Inv (fresh : State α) := by
  constructor <;> simp [fresh, places]

theorem send_inv {s : State α} (h : Inv s) {seq : Int64} (hseq : seq ∉ s.sent) :
    Inv { s with calling := s.calling ++ [seq], sent := s.sent ++ [seq] } := by
  have hc : seq ∉ s.calling := fun hm => hseq (h.calling_sent seq hm)
  refine { h with
    calling_nodup := ?_, pending_sent := ?_, calling_sent := ?_, calling_pending := ?_ }
  · exact List.nodup_append.mpr ⟨h.calling_nodup, by simp, by
      intro a ha b hb; obtain rfl := List.mem_singleton.mp hb; rintro rfl; exact hc ha⟩
  · exact fun p hp => List.mem_append_left _ (h.pending_sent p hp)
  · intro q hq
    rcases List.mem_append.mp hq with hq | hq
    · exact List.mem_append_left _ (h.calling_sent q hq)
    · exact List.mem_append_right _ hq
  · intro p hp hm
    rcases List.mem_append.mp hm with hm | hm
    · exact h.calling_pending p hp hm
    · exact hseq (List.mem_singleton.mp hm ▸ h.pending_sent p hp)

theorem register_inv {s : State α} (h : Inv s) {seq : Int64} (hseq : seq ∈ s.calling) :
    Inv (register s seq) := by
  have hnew : s.nextFuture ∉ places s := fun hm => Nat.lt_irrefl _ (h.places_lt _ hm)
  have hfree : seq ∉ s.pending.map Prod.fst := by
    intro hm
    obtain ⟨p, hp, rfl⟩ := List.mem_map.mp hm
    exact h.calling_pending p hp hseq
  have hplaces : (places (register s seq)).Perm (s.nextFuture :: places s) := by
    simp only [places, register, List.map_append, List.map_cons, List.map_nil, List.append_assoc,
      List.singleton_append]
    exact List.perm_middle
  have hnumber : ∀ f ∈ places s, (register s seq).numberOf f = s.numberOf f := by
    intro f hf
    exact update_of_ne (Nat.ne_of_lt (h.places_lt f hf)) _ _
  have hpending : ∀ p ∈ s.pending, p.2 ∈ places s := fun p hp =>
    List.mem_append_left _ (List.mem_map_of_mem hp)
  have haction : ∀ p ∈ s.actions, p.1 ∈ places s := fun p hp =>
    List.mem_append_right _ (List.mem_append_left _ (List.mem_map_of_mem hp))
  have hcompletion : ∀ p ∈ s.completions, p.1 ∈ places s := fun p hp =>
    List.mem_append_right _ (List.mem_append_right _ (List.mem_map_of_mem hp))
  constructor
  · simp only [register, List.map_append, List.map_cons, List.map_nil]
    exact List.nodup_append.mpr ⟨h.pending_nodup, by simp, by
      intro a ha b hb; obtain rfl := List.mem_singleton.mp hb; rintro rfl; exact hfree ha⟩
  · exact h.calling_nodup.erase seq
  · intro p hp
    rcases List.mem_append.mp hp with hp | hp
    · exact h.pending_sent p hp
    · obtain rfl := List.mem_singleton.mp hp
      exact h.calling_sent seq hseq
  · exact fun q hq => h.calling_sent q (List.mem_of_mem_erase hq)
  · intro p hp hm
    rcases List.mem_append.mp hp with hp | hp
    · exact h.calling_pending p hp (List.mem_of_mem_erase hm)
    · obtain rfl := List.mem_singleton.mp hp
      exact absurd hm h.calling_nodup.not_mem_erase
  · exact hplaces.nodup_iff.mpr (List.nodup_cons.mpr ⟨hnew, h.places_nodup⟩)
  · intro f hf
    rcases List.mem_cons.mp (hplaces.mem_iff.mp hf) with rfl | hf
    · exact Nat.lt_succ_self _
    · exact Nat.lt_succ_of_lt (h.places_lt f hf)
  · intro p hp
    rcases List.mem_append.mp hp with hp | hp
    · rw [hnumber _ (hpending p hp), h.pending_number p hp]
    · obtain rfl := List.mem_singleton.mp hp
      exact update_self _ _ _
  · exact fun p hp => by rw [hnumber _ (haction p hp)]; exact h.action_number p hp
  · exact fun p hp => by rw [hnumber _ (hcompletion p hp)]; exact h.completion_number p hp
  · intro f resp hv
    by_cases hf : f = s.nextFuture
    · subst hf
      simp [register] at hv
    · exact h.value_completed f resp (by simpa [register, hf] using hv)

/-- With no key twice, taking out a key takes out one entry. -/
theorem perm_filter_key {κ β : Type} [DecidableEq κ] {l : List (κ × β)} {k : κ} {b : β}
    (hl : (l.map Prod.fst).Nodup) (hm : (k, b) ∈ l) :
    l.Perm ((k, b) :: l.filter (·.1 != k)) := by
  induction l with
  | nil => cases hm
  | cons p l ih =>
    simp only [List.map_cons, List.nodup_cons] at hl
    by_cases hk : p.1 = k
    · have hrest : l.filter (·.1 != k) = l := by
        refine List.filter_eq_self.mpr fun q hq => ?_
        have : q.1 ≠ k := by rintro rfl; exact hl.1 (hk ▸ List.mem_map_of_mem hq)
        simpa using this
      have hp : p = (k, b) := by
        rcases List.mem_cons.mp hm with hm | hm
        · exact hm.symm
        · exact absurd (hk ▸ List.mem_map_of_mem hm) hl.1
      subst hp
      simp [hrest]
    · have hml : (k, b) ∈ l := by
        rcases List.mem_cons.mp hm with rfl | hm
        · exact absurd rfl hk
        · exact hm
      have := ih hl.2 hml
      rw [List.filter_cons_of_pos (by simpa using hk)]
      exact (this.cons p).trans (List.Perm.swap _ _ _)

theorem takeResponse_cases (s : State α) (seq : Int64) (resp : α) :
    (takeResponse s seq resp = { s with pending := s.pending.filter (·.1 != seq) }) ∨
    ∃ fut, (seq, fut) ∈ s.pending ∧ takeResponse s seq resp =
      { s with
        pending := s.pending.filter (·.1 != seq)
        actions := s.actions ++ [(fut, seq, resp)] } := by
  unfold takeResponse
  cases hf : s.pending.find? (·.1 == seq) with
  | none => exact .inl rfl
  | some p =>
    have hm := List.mem_of_find?_eq_some hf
    have hs : p.1 = seq := by simpa using List.find?_some hf
    exact .inr ⟨p.2, by rw [← hs]; exact hm, rfl⟩

/-- The entries left after taking out a number are entries from before. -/
theorem filter_inv {s : State α} (h : Inv s) (seq : Int64) :
    Inv { s with pending := s.pending.filter (·.1 != seq) } := by
  have hmem : ∀ p ∈ s.pending.filter (·.1 != seq), p ∈ s.pending := fun p hp =>
    List.mem_of_mem_filter hp
  have hplaces : (places { s with pending := s.pending.filter (·.1 != seq) }).Sublist (places s) :=
    List.Sublist.append ((List.filter_sublist).map _) (List.Sublist.refl _)
  exact { h with
    pending_nodup := h.pending_nodup.sublist ((List.filter_sublist).map _)
    pending_sent := fun p hp => h.pending_sent p (hmem p hp)
    calling_pending := fun p hp => h.calling_pending p (hmem p hp)
    places_nodup := h.places_nodup.sublist hplaces
    places_lt := fun f hf => h.places_lt f (hplaces.subset hf)
    pending_number := fun p hp => h.pending_number p (hmem p hp) }

theorem takeResponse_inv {s : State α} (h : Inv s) (seq : Int64) (resp : α) :
    Inv (takeResponse s seq resp) := by
  obtain he | ⟨fut, hm, he⟩ := takeResponse_cases s seq resp
  · rw [he]
    exact filter_inv h seq
  · rw [he]
    have hf := filter_inv h seq
    -- the future moves from the entries to the completions, so no place is added
    have hplaces : (places { s with
        pending := s.pending.filter (·.1 != seq)
        actions := s.actions ++ [(fut, seq, resp)] }).Perm (places s) := by
      have hp := (perm_filter_key h.pending_nodup hm).map Prod.snd
      simp only [places, List.map_append, List.map_cons, List.map_nil, List.append_assoc,
        List.singleton_append] at hp ⊢
      refine List.Perm.trans ?_ (hp.symm.append_right _)
      rw [List.cons_append]
      exact (List.perm_middle.append_left _).trans List.perm_middle
    exact { hf with
      places_nodup := hplaces.nodup_iff.mpr h.places_nodup
      places_lt := fun f hm => h.places_lt f (hplaces.mem_iff.mp hm)
      action_number := by
        intro p hp
        rcases List.mem_append.mp hp with hp | hp
        · exact h.action_number p hp
        · obtain rfl := List.mem_singleton.mp hp
          exact h.pending_number _ hm }

theorem complete_value {f : Future α} {v : Except String α} {resp : α}
    (h : (f.complete v).2.value = some (.ok resp)) : f.value = some (.ok resp) ∨ v = .ok resp := by
  unfold Future.complete at h
  split at h
  · exact .inl h
  · exact .inr (by simpa using h)

theorem onComplete_value (f : Future α) (cb : Nat) : (f.onComplete cb).2.value = f.value := by
  unfold Future.onComplete
  split <;> simp_all

theorem runAction_inv {s : State α} (h : Inv s) {i fut : Nat} {seq : Int64} {resp : α}
    (hi : s.actions[i]? = some (fut, seq, resp)) :
    Inv { s with
      actions := s.actions.eraseIdx i
      futures := update s.futures fut ((s.futures fut).complete (.ok resp)).2
      completions := s.completions ++ [(fut, seq, resp)] } := by
  obtain ⟨hlt, hget⟩ := List.getElem?_eq_some_iff.mp hi
  have hmem : (fut, seq, resp) ∈ s.actions := hget ▸ List.getElem_mem hlt
  have hperm : ((fut, seq, resp) :: s.actions.eraseIdx i).Perm s.actions := by
    rw [← hget]
    exact List.getElem_cons_eraseIdx_perm hlt
  have hplaces : (places { s with
      actions := s.actions.eraseIdx i
      futures := update s.futures fut ((s.futures fut).complete (.ok resp)).2
      completions := s.completions ++ [(fut, seq, resp)] }).Perm (places s) := by
    refine List.Perm.append_left _ (List.Perm.trans ?_ ((hperm.map Prod.fst).append_right _))
    rw [List.map_append, List.map_cons, List.map_nil, ← List.append_assoc]
    exact List.perm_append_singleton _ _
  refine { h with places_nodup := ?_, places_lt := ?_, action_number := ?_, completion_number := ?_,
                  value_completed := ?_ }
  · exact hplaces.nodup_iff.mpr h.places_nodup
  · exact fun f hf => h.places_lt f (hplaces.mem_iff.mp hf)
  · exact fun p hp => h.action_number p (List.mem_of_mem_eraseIdx hp)
  · intro p hp
    rcases List.mem_append.mp hp with hp | hp
    · exact h.completion_number p hp
    · obtain rfl := List.mem_singleton.mp hp
      exact h.action_number _ hmem
  · intro f r hv
    by_cases hf : f = fut
    · subst hf
      rcases complete_value (by simpa using hv) with hv | hv
      · obtain ⟨q, hq⟩ := h.value_completed f r hv
        exact ⟨q, List.mem_append_left _ hq⟩
      · obtain rfl : resp = r := by simpa using hv
        exact ⟨seq, List.mem_append_right _ (List.mem_singleton.mpr rfl)⟩
    · obtain ⟨q, hq⟩ := h.value_completed f r (by simpa [hf] using hv)
      exact ⟨q, List.mem_append_left _ hq⟩

/-- Changing a future without giving it a response keeps the invariant. -/
theorem update_future_inv {s : State α} (h : Inv s) (f : Nat) (fut : Future α)
    (hv : ∀ resp, fut.value = some (.ok resp) → (s.futures f).value = some (.ok resp)) :
    Inv { s with futures := update s.futures f fut } := by
  refine { h with value_completed := ?_ }
  intro g resp hg
  by_cases hf : g = f
  · subst hf
    exact h.value_completed g resp (hv resp (by simpa using hg))
  · exact h.value_completed g resp (by simpa [hf] using hg)

theorem step_inv (s : State α) (m : Move α) (t : State α) (h : Inv s) (hs : step s m = some t) :
    Inv t := by
  cases m with
  | send seq =>
    simp only [step, Option.ite_none_left_eq_some, Option.some.injEq] at hs
    obtain ⟨hseq, rfl⟩ := hs
    exact send_inv h hseq
  | register seq =>
    simp only [step, Option.ite_none_right_eq_some, Option.some.injEq] at hs
    obtain ⟨hseq, rfl⟩ := hs
    exact register_inv h hseq
  | take response => cases response with
    | none => obtain rfl : s = t := by simpa [step] using hs
              exact h
    | some r => obtain rfl : takeResponse s r.1 r.2 = t := by simpa [step] using hs
                exact takeResponse_inv h r.1 r.2
  | runAction i =>
    cases hi : s.actions[i]? with
    | none => simp [step, hi] at hs
    | some a =>
      obtain ⟨fut, seq, resp⟩ := a
      simp only [step, hi, Option.some.injEq] at hs
      obtain rfl := hs
      exact runAction_inv h hi
  | fail f message =>
    obtain rfl := Option.some.inj hs
    exact update_future_inv h f _ fun resp hr => (complete_value hr).resolve_right (by simp)
  | onComplete f cb =>
    obtain rfl := Option.some.inj hs
    exact update_future_inv h f _ fun resp hr => by rwa [onComplete_value] at hr

/-- Completed by the client at most once, and only with a response to its own request. -/
structure OwnResponses (s : State α) : Prop where
  once : ∀ f, (s.completions.map Prod.fst).count f ≤ 1
  own : ∀ p ∈ s.completions, s.numberOf p.1 = some p.2.1
  value : ∀ f resp, (s.futures f).value = some (.ok resp) →
    ∃ seq, s.numberOf f = some seq ∧ (f, seq, resp) ∈ s.completions
  pending_once : (s.pending.map Prod.fst).Nodup

theorem ownResponses_of_inv {s : State α} (h : Inv s) : OwnResponses s where
  once := by
    have hnodup := h.places_nodup
    rw [places, List.nodup_append, List.nodup_append] at hnodup
    exact List.nodup_iff_count_le_one.mp hnodup.2.1.2.1
  own := h.completion_number
  value := by
    intro f resp hv
    obtain ⟨seq, hm⟩ := h.value_completed f resp hv
    exact ⟨seq, h.completion_number _ hm, hm⟩
  pending_once := h.pending_nodup

/-- Taking a response leaves every entry of another call where it was. -/
theorem take_keeps_others {s : State α} (h : Inv s) {seq : Int64} {resp : α} {p : Int64 × Nat}
    (hp : p ∈ s.pending) (hother : s.numberOf p.2 ≠ some seq) :
    p ∈ (takeResponse s seq resp).pending := by
  have hne : p.1 ≠ seq := fun he => hother (he ▸ h.pending_number p hp)
  have hmem : p ∈ s.pending.filter (·.1 != seq) := List.mem_filter.mpr ⟨hp, by simpa using hne⟩
  obtain he | ⟨_, _, he⟩ := takeResponse_cases s seq resp <;> rw [he] <;> exact hmem

/-- In every run of calls and takes, however they interleave and whatever responses arrive. -/
theorem responses_reach_their_call (es : List (Move α)) (s : State α)
    (h : run step fresh es = some s) : OwnResponses s ∧
      ∀ seq resp, ∀ p ∈ s.pending, s.numberOf p.2 ≠ some seq →
        p ∈ (takeResponse s seq resp).pending := by
  have hinv : Inv s := run_invariant step_inv fresh_inv h
  exact ⟨ownResponses_of_inv hinv, fun seq resp p hp => take_keeps_others hinv hp⟩

/-- Two calls, a stray response, one too early for its registration, and a repeated one. -/
def mixedRun : List (Move String) :=
  [.send 7, .send 8, .take (some (3, "stray")), .take (some (8, "early")), .register 7,
    .register 8, .take (some (8, "b")), .take (some (7, "a")), .take (some (7, "again")),
    .runAction 1, .runAction 0]

theorem responses_reach_their_call_mixed : ∃ s, run step fresh mixedRun = some s ∧
    s.completions = [(0, 7, "a"), (1, 8, "b")] ∧ OwnResponses s := by
  have hrun : ∃ s, run step fresh mixedRun = some s ∧
      s.completions = [(0, 7, "a"), (1, 8, "b")] := ⟨_, rfl, rfl⟩
  obtain ⟨s, hs, hc⟩ := hrun
  exact ⟨s, hs, hc, (responses_reach_their_call mixedRun s hs).1⟩

end Client
