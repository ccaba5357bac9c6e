import Rcllean.WakeUp

/-!
# Registrations

A pass drops the registrations of destroyed entities: it reads the list, looks
at each entity and then filters the list as it is by that time, while other
threads draw numbers, push and destroy. What it drops is picked by number, so
no number may ever be given out twice, not even one that has been dropped.
-/
namespace Registrations

open WaitSets Executors Spinner WakeUp Runs

/-- All that has a number: registered, or on its way there with a thread that has drawn it. -/
def enlisted (s : Sys) : List (Nat × Waitable) := s.waitables ++ s.numbered

/-- The registrations as the pass read them. -/
def seen : Pc → List (Nat × Waitable)
  | .checking all _ _ => all
  | .forgetting all _ => all
  | _ => []

/-- What the pass has read is still registered. -/
structure Inv (s : Sys) : Prop where
  base : Base s
  numbered : Numbered s
  seen : seen s.pc ⊆ s.waitables

theorem seen_mainStep {s t : Sys} (h : seen s.pc ⊆ s.waitables) (hs : MainStep s t) :
    seen t.pc ⊆ t.waitables := by
  cases hs with
  | snapshot hpc => exact List.Subset.refl _
  | live hpc _ | dead hpc _ | checked hpc =>
    rw [hpc] at h
    exact h
  | _ => exact List.nil_subset _

theorem step_inv (s : Sys) (m : Move) (t : Sys) (h : Inv s) (hs : step s m = some t) : Inv t := by
  refine ⟨step_base s m t h.base hs, step_numbered h.base h.numbered hs, ?_⟩
  cases step_cases h.base hs with
  | main hmain => exact seen_mainStep h.seen hmain
  | refused _ | wake hpc _ | passed hpc | dispatched hpc _ | raised hpc =>
    exact List.nil_subset _
  | addPush hi => exact List.Subset.trans h.seen (List.subset_append_left _ _)
  | _ => exact h.seen

/-- The numbers found dead are of entities that are, and nothing else has them. -/
theorem Inv.not_dead {s : Sys} (h : Inv s) {all : List (Nat × Waitable)} {dead : List Nat}
    (hpc : s.pc = .forgetting all dead) {e : Nat × Waitable} (he : e ∈ s.waitables)
    (hv : s.valid e.2.handle = true) : dead.contains e.1 = false := by
  have hdead := h.numbered.dead
  have hseen := h.seen
  rw [hpc] at hdead hseen
  have hdistinct := (List.nodup_append.mp h.numbered.distinct).1
  by_contra hmem
  obtain ⟨p, hp, hid, hpv⟩ := hdead.2 e.1 (by simpa using hmem)
  obtain rfl := List.inj_on_of_nodup_map hdistinct (hseen hp) he hid
  rw [hv] at hpv
  cases hpv

theorem Inv.kept {s t : Sys} {m : Move} (h : Inv s) (hs : step s m = some t) {e : Nat × Waitable}
    (he : e ∈ enlisted s) (hv : t.valid e.2.handle = true) : e ∈ enlisted t := by
  cases step_cases h.base hs with
  | main hmain => cases hmain with
    | @forget all dead kept hpc hkept =>
      simp only [step, mainStep, hpc] at hs
      have hw := congrArg Sys.waitables (Option.some.inj hs)
      change _ = kept at hw
      refine (List.mem_append.mp he).elim (fun he => ?_) (List.mem_append_right _)
      refine List.mem_append_left _ ?_
      rw [← hw]
      split
      · exact List.mem_filter.mpr ⟨he, by rw [h.not_dead hpc he hv]; rfl⟩
      · exact he
    | _ => exact he
  | addBegin =>
    exact (List.mem_append.mp he).elim (List.mem_append_left _) fun he =>
      List.mem_append_right _ (List.mem_append_left _ he)
  | @addPush i p hi =>
    obtain ⟨hlt, hget⟩ := List.getElem?_eq_some_iff.mp hi
    rcases List.mem_append.mp he with he | he
    · exact List.mem_append_left _ (List.mem_append_left _ he)
    · have hmoved := (List.getElem_cons_eraseIdx_perm hlt).mem_iff.mpr he
      rcases List.mem_cons.mp hmoved with rfl | hrest
      · rw [hget]
        exact List.mem_append_left _ (List.mem_append_right _ (List.mem_singleton.mpr rfl))
      · exact List.mem_append_right _ hrest
  | _ => exact he

theorem invalid_stays {s t : Sys} {m : Move} (h : Base s) (hs : step s m = some t) {d : Handle}
    (hv : s.valid d = false) : t.valid d = false := by
  cases step_cases h hs with
  | main hmain => cases hmain <;> exact hv
  | @invalidate x hx =>
    by_cases hd : d = x
    · subst hd
      exact Function.update_self ..
    · exact (Function.update_of_ne hd ..).trans hv
  | _ => exact hv

/-! ## The numbers given out -/

/-- The number an `add` draws, with the entity it is for. -/
def drawn (s : Sys) : Move → List (Nat × Waitable)
  | .addBegin w => [(s.nextId, w)]
  | _ => []

/-- The numbers given out so far are distinct and below the next one, and whatever has a number has
one of them. -/
structure Drawn (s : Sys) (given : List (Nat × Waitable)) : Prop where
  base : Base s
  distinct : (given.map Prod.fst).Nodup
  lt : ∀ p ∈ given, p.1 < s.nextId
  enlisted : enlisted s ⊆ given

theorem Drawn.next {s : Sys} {given : List (Nat × Waitable)} (h : Drawn s given) (w : Waitable)
    (hb : Base { s with
      nextId := s.nextId + 1, numbered := s.numbered ++ [(s.nextId, w)] }) :
    Drawn { s with nextId := s.nextId + 1, numbered := s.numbered ++ [(s.nextId, w)] }
      (given ++ [(s.nextId, w)]) := by
  refine ⟨hb, ?_, ?_, ?_⟩
  · rw [List.map_append]
    refine List.nodup_append.mpr ⟨h.distinct, List.nodup_singleton _, ?_⟩
    intro a ha b hb
    obtain ⟨p, hp, rfl⟩ := List.mem_map.mp ha
    obtain rfl := List.mem_singleton.mp hb
    exact Nat.ne_of_lt (h.lt p hp)
  · intro p hp
    rcases List.mem_append.mp hp with hp | hp
    · exact Nat.lt_succ_of_lt (h.lt p hp)
    · obtain rfl := List.mem_singleton.mp hp
      exact Nat.lt_succ_self _
  · intro p hp
    rcases List.mem_append.mp hp with hp | hp
    · exact List.mem_append_left _ (h.enlisted (List.mem_append_left _ hp))
    · rcases List.mem_append.mp hp with hp | hp
      · exact List.mem_append_left _ (h.enlisted (List.mem_append_right _ hp))
      · exact List.mem_append_right _ hp

/-- A step that draws no number neither changes the next one nor enlists anything. -/
theorem Drawn.still {s t : Sys} {given : List (Nat × Waitable)} (h : Drawn s given)
    (hb : Base t) (hnext : t.nextId = s.nextId)
    (henlisted : Registrations.enlisted t ⊆ Registrations.enlisted s) : Drawn t (given ++ []) := by
  rw [List.append_nil]
  refine ⟨hb, h.distinct, ?_, List.Subset.trans henlisted h.enlisted⟩
  rw [hnext]
  exact h.lt

theorem enlisted_mainStep {s t : Sys} (hs : MainStep s t) :
    t.nextId = s.nextId ∧ enlisted t ⊆ enlisted s := by
  cases hs with
  | forget hpc hkept =>
    refine ⟨rfl, fun e he => ?_⟩
    rcases List.mem_append.mp he with he | he
    · exact List.mem_append_left _ (hkept.subset he)
    · exact List.mem_append_right _ he
  | _ => exact ⟨rfl, List.Subset.refl _⟩

theorem enlisted_addPush {s : Sys} {i : Nat} {e : Nat × Waitable} (hi : s.numbered[i]? = some e) :
    s.waitables ++ [e] ++ s.numbered.eraseIdx i ⊆ enlisted s := by
  intro p hp
  rcases List.mem_append.mp hp with hp | hp
  · rcases List.mem_append.mp hp with hp | hp
    · exact List.mem_append_left _ hp
    · obtain rfl := List.mem_singleton.mp hp
      exact List.mem_append_right _ (List.mem_of_getElem? hi)
  · exact List.mem_append_right _ (List.mem_of_mem_eraseIdx hp)

theorem step_drawn (s : Sys) (m : Move) (t : Sys) (given : List (Nat × Waitable))
    (h : Drawn s given) (hs : step s m = some t) : Drawn t (given ++ drawn s m) := by
  have hb := step_base s m t h.base hs
  cases step_cases h.base hs with
  | main hmain =>
    obtain ⟨hnext, hsub⟩ := enlisted_mainStep hmain
    exact h.still hb hnext hsub
  | @addBegin w => exact h.next w hb
  | addPush hi => exact h.still hb rfl (enlisted_addPush hi)
  | _ => exact h.still hb rfl (List.Subset.refl _)

/-! ## Runs -/

theorem start_inv {ex : Executor} {valid : Handle → Bool} (hwakeup : valid ex.wakeup = true)
    (hbooks : ∃ records, Books ex.waitSet records) (children : Handle → List Handle)
    (triggered : Bool) : Inv (start ex valid children triggered) where
  base := start_base hwakeup hbooks children triggered
  numbered := (WakeUp.start_inv hwakeup hbooks children triggered).numbered
  seen := List.nil_subset _

/-- No registration of an entity that still exists is ever dropped, whichever entities are added
and destroyed while a pass clears up. All numbers that were given out before the run or are drawn
in it are distinct, and what is registered has one of them. -/
theorem registrations_kept {ex : Executor} {valid : Handle → Bool}
    (hwakeup : valid ex.wakeup = true) (hbooks : ∃ records, Books ex.waitSet records)
    (children : Handle → List Handle) (triggered : Bool) {before after : List Move} {s t : Sys}
    (hs : run step (start ex valid children triggered) before = some s)
    (ht : run step s after = some t) :
    (∀ e ∈ s.waitables ++ s.numbered, t.valid e.2.handle = true →
      e ∈ t.waitables ++ t.numbered) ∧
    ((ex.waitables.entries ++ outputs step drawn (start ex valid children triggered) before ++
      outputs step drawn s after).map Prod.fst).Nodup ∧
    t.waitables ++ t.numbered ⊆
      ex.waitables.entries ++ outputs step drawn (start ex valid children triggered) before ++
        outputs step drawn s after := by
  have hinv : Inv s := run_invariant step_inv (start_inv hwakeup hbooks children triggered) hs
  have hstart : Drawn (start ex valid children triggered) ex.waitables.entries := by
    refine ⟨start_base hwakeup hbooks children triggered, ex.waitables.distinct,
      ex.waitables.numbered, ?_⟩
    simp [enlisted, start]
  have hall := throughout_true step
  have hmid := run_outputs (fun s e t log h _ => step_drawn s e t log h) hstart (hall _ _) hs
  have hend := run_outputs (fun s e t log h _ => step_drawn s e t log h) hmid (hall _ _) ht
  refine ⟨fun e he hv => ?_, hend.distinct, hend.enlisted⟩
  have hkeep : ∀ (u : Sys) (m : Move) (w : Sys),
      Inv u ∧ (e ∈ enlisted u ∨ u.valid e.2.handle = false) → step u m = some w →
      Inv w ∧ (e ∈ enlisted w ∨ w.valid e.2.handle = false) := by
    rintro u m w ⟨hu, hin | hdead⟩ hstep
    · refine ⟨step_inv u m w hu hstep, ?_⟩
      cases hw : w.valid e.2.handle with
      | false => exact .inr rfl
      | true => exact .inl (hu.kept hstep hin hw)
    · exact ⟨step_inv u m w hu hstep, .inr (invalid_stays hu.base hstep hdead)⟩
  exact (run_invariant hkeep ⟨hinv, .inl he⟩ ht).2.resolve_right (by simp [hv])

/-- A third subscription comes and the first one goes while the pass looks at the first two. -/
def clearingUp : List Move :=
  [.main, .main, .invalidate 1, .main, .addBegin (subscription 0 3), .addPush 0, .main, .main,
    .main]

theorem registrations_kept_added : ∃ ex, Executor.create true 0 = .ok ex ∧
    ∃ s t, run step (start ex (fun _ => true) (fun _ => []) false)
        (register (subscription 0 1) ++ register (subscription 0 2)) = some s ∧
      run step s clearingUp = some t ∧
      t.waitables = [(1, subscription 0 2), (2, subscription 0 3)] ∧
      (1, subscription 0 2) ∈ t.waitables ++ t.numbered ∧
      (([] ++ outputs step drawn (start ex (fun _ => true) (fun _ => []) false)
          (register (subscription 0 1) ++ register (subscription 0 2)) ++
        outputs step drawn s clearingUp).map Prod.fst).Nodup := by
  obtain ⟨ex, hex, hbooks⟩ := exists_start
  have hrun : ∃ s t, run step (start ex (fun _ => true) (fun _ => []) false)
        (register (subscription 0 1) ++ register (subscription 0 2)) = some s ∧
      run step s clearingUp = some t ∧ (1, subscription 0 2) ∈ s.waitables ++ s.numbered ∧
      t.valid 2 = true ∧ t.waitables = [(1, subscription 0 2), (2, subscription 0 3)] := by
    obtain rfl := Except.ok.inj hex
    exact ⟨_, _, rfl, rfl, List.mem_of_elem_eq_true rfl, rfl, rfl⟩
  obtain ⟨s, t, hs, ht, hin, hv, hreg⟩ := hrun
  have hkept := registrations_kept rfl hbooks (fun _ => []) false hs ht
  have hnone : ex.waitables.entries = [] := by
    rw [(Executor.books_of_create hex).2.1]
    rfl
  rw [hnone] at hkept
  exact ⟨ex, hex, s, t, hs, ht, hreg, hkept.1 _ hin hv, hkept.2.1⟩

end Registrations
