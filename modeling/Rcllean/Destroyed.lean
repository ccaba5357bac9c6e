import Rcllean.Executor

/-!
# Entities destroyed in the middle of a pass

Validity is looked at once, before the wait, and user callbacks run between
the takes. A pass therefore goes through, with every other entity served,
exactly when no callback that runs destroys an entity whose turn is still to
come and whose slot is ready, no service handler destroys the service it has
to answer through, and neither the fill nor the wait nor a take nor a response
is refused.
-/
namespace Destroyed

open WaitSets Executors Runs

/-- The pass gets to its takes and finds the slot ready. -/
def found (out : Outside) (t : Turn) : Bool :=
  out.woken && out.contextOk && out.ready t.waitable.kind t.slot

/-- A callback comes of the turn: of a guard condition always, else when the take has data. -/
def runs (out : Outside) (t : Turn) : Bool :=
  found out t && (t.waitable.kind = .guardCondition || out.answer t.place = .data)

def turnsOf (s : World) : List Turn := turnsFrom 0 s.eligible (slotsOf s.eligible)

/-- Inline dispatch, as `spinOnce` hands it to the pass. -/
def inline (out : Outside) (t : Turn) : World → Except Failure World :=
  withMembership t.waitable.group (runAction out t)

/-- The wait set is in order, the wakeup guard exists and there are fewer than 2^64 entities. -/
structure Prepared (s : World) : Prop where
  books : ∃ records, Books s.executor.waitSet records
  wakeup : s.valid s.executor.wakeup = true
  short : s.executor.waitables.entries.length + 1 < 2 ^ 64

/-- No callback destroys an entity whose ready slot is still to be read, and nothing else stands
in the way of a take or a response. The response to a request that has been taken is still to be
sent when the handler returns. -/
structure Undisturbed (out : Outside) (turns : List Turn) : Prop where
  no_late_turn : turns.Pairwise fun p q =>
    runs out p → found out q → q.waitable.handle ∉ out.destroys p.place
  no_refusal : ∀ p ∈ turns, found out p → p.waitable.kind ≠ .guardCondition →
    ∀ why, out.answer p.place ≠ .refused why
  no_own_service : ∀ p ∈ turns, runs out p → p.waitable.kind = .service →
    p.waitable.handle ∉ out.destroys p.place
  no_refused_response : ∀ p ∈ turns, runs out p → p.waitable.kind = .service →
    out.response p.place = none

/-- What destroying entities leaves of a pass from `s` that ended in `s'`. -/
structure Unbroken (out : Outside) (s s' : World) : Prop where
  not_taken : (turnsOf s).Pairwise fun p q => .ran p.place ∈ s'.log →
    q.waitable.handle ∈ out.destroys p.place → .taken q.place ∉ s'.log
  served : ∀ q ∈ turnsOf s, found out q →
    (∀ p ∈ turnsOf s, p.place < q.place → .ran p.place ∈ s'.log →
      q.waitable.handle ∉ out.destroys p.place) →
    .taken q.place ∈ s'.log ∧ (runs out q → .ran q.place ∈ s'.log)
  forgotten : ∀ p ∈ turnsOf s, .ran p.place ∈ s'.log →
    ∀ e ∈ (s'.executor.liveWaitables s'.valid).1.waitables.entries,
      e.2.handle ∉ out.destroys p.place

/-! ## One turn -/

def eventsOf (out : Outside) (t : Turn) : List Event :=
  (if found out t then [.taken t.place] else []) ++ if runs out t then [.ran t.place] else []

def validAfter (out : Outside) (t : Turn) (valid : Handle → Bool) : Handle → Bool :=
  if runs out t then fun h => valid h && !(out.destroys t.place).contains h else valid

def afterTurn (out : Outside) (s : World) (t : Turn) : World :=
  { s with valid := validAfter out t s.valid, log := s.log ++ eventsOf out t }

/-- The turn does not raise. -/
structure Smooth (out : Outside) (valid : Handle → Bool) (t : Turn) : Prop where
  take : found out t → t.waitable.kind ≠ .guardCondition →
    valid t.waitable.handle = true ∧ ∀ why, out.answer t.place ≠ .refused why
  respond : runs out t → t.waitable.kind = .service →
    t.waitable.handle ∉ out.destroys t.place ∧ out.response t.place = none

theorem withMembership_ok_iff {g : CallbackGroup} {act : World → Except Failure World}
    {s s' : World} : withMembership g act s = .ok s' ↔
      ∃ u, act { s with running := enter s.running g } = .ok u ∧
        s' = { u with running := leave u.running g } := by
  unfold withMembership
  simp only [bind_eq_ok, pure_eq_ok]

theorem runAction_ok_iff {out : Outside} {t : Turn} {s s' : World} :
    runAction out t s = .ok s' ↔
      (t.waitable.kind = .service → s.valid t.waitable.handle = true ∧
        t.waitable.handle ∉ out.destroys t.place ∧ out.response t.place = none) ∧
      s' = { s with
        valid := fun h => s.valid h && !(out.destroys t.place).contains h
        log := s.log ++ [.ran t.place] } := by
  unfold runAction
  by_cases hk : t.waitable.kind = .service
  · simp only [hk, if_true, bind_eq_ok, serviceSendResponse_ok_iff, pure_eq_ok, forall_const]
    simp [and_assoc]
  · simp only [hk, if_false, pure_eq_ok, false_implies, true_and]

theorem inline_ok_iff {out : Outside} {t : Turn} {s s' : World} : inline out t s = .ok s' ↔
    (t.waitable.kind = .service → s.valid t.waitable.handle = true ∧
      t.waitable.handle ∉ out.destroys t.place ∧ out.response t.place = none) ∧
    s' = { s with
      valid := fun h => s.valid h && !(out.destroys t.place).contains h
      log := s.log ++ [.ran t.place] } := by
  rw [inline, withMembership_ok_iff]
  constructor
  · rintro ⟨u, hu, rfl⟩
    obtain ⟨hs, rfl⟩ := runAction_ok_iff.mp hu
    exact ⟨hs, by rw [leave_enter]⟩
  · rintro ⟨hs, rfl⟩
    exact ⟨_, runAction_ok_iff.mpr ⟨hs, rfl⟩, by rw [leave_enter]⟩

theorem smooth_of_not_found {out : Outside} {t : Turn} (valid : Handle → Bool)
    (hf : found out t = false) : Smooth out valid t := by
  constructor
  · intro h
    exact absurd (hf.symm.trans h) (by decide)
  · intro h
    simp [runs, hf] at h

theorem afterTurn_of_runs {out : Outside} {t : Turn} (s : World) (hf : found out t = true)
    (hr : runs out t = true) : afterTurn out s t = { s with
      valid := fun h => s.valid h && !(out.destroys t.place).contains h
      log := s.log ++ [.taken t.place] ++ [.ran t.place] } := by
  simp [afterTurn, validAfter, eventsOf, hf, hr]

theorem afterTurn_of_idle {out : Outside} {t : Turn} (s : World) (hf : found out t = true)
    (hr : runs out t = false) :
    afterTurn out s t = { s with log := s.log ++ [.taken t.place] } := by
  simp [afterTurn, validAfter, eventsOf, hf, hr]

theorem takeTurn_ok_iff {out : Outside} {t : Turn} {s s' : World}
    (hrun : canRun s.running t.waitable.group = true)
    (hready : s.executor.waitSet.ready t.waitable.kind t.slot = found out t) :
    takeTurn out (inline out) t s = .ok s' ↔ Smooth out s.valid t ∧ s' = afterTurn out s t := by
  rw [takeTurn, if_pos hrun]
  simp only [t.waitable.takeIfReady_eq, hready]
  cases hf : found out t with
  | false =>
    have hafter : afterTurn out s t = { s with log := s.log ++ [] } := by
      simp [afterTurn, validAfter, eventsOf, runs, hf]
    rw [hafter]
    simp [smooth_of_not_found s.valid hf, pure_eq_ok]
  | true =>
    by_cases hg : t.waitable.kind = .guardCondition
    · have hruns : runs out t = true := by simp [runs, hf, hg]
      have hsmooth : Smooth out s.valid t := ⟨fun _ h => absurd hg h, fun _ h => by simp [hg] at h⟩
      rw [afterTurn_of_runs s hf hruns]
      simp only [hg, if_true, ok_bind, inline_ok_iff, hsmooth, true_and]
      simp
    · have hruns : runs out t = decide (out.answer t.place = .data) := by simp [runs, hf, hg]
      simp only [hg, if_true, if_false, bind_eq_ok, takeFrom_ok_iff]
      constructor
      · rintro ⟨b, ⟨htake, rfl⟩, hs⟩
        by_cases hd : out.answer t.place = .data
        · simp only [hd, decide_true, if_true, inline_ok_iff] at hs
          obtain ⟨hrespond, rfl⟩ := hs
          refine ⟨⟨fun _ _ => htake, fun _ hk => (hrespond hk).2⟩, ?_⟩
          rw [afterTurn_of_runs s hf (hruns.trans (decide_eq_true hd))]
        · simp only [hd, decide_false, Bool.false_eq_true, if_false, pure_eq_ok] at hs
          obtain rfl := hs
          have hidle := hruns.trans (decide_eq_false hd)
          refine ⟨⟨fun _ _ => htake, fun h => absurd (hidle.symm.trans h) (by decide)⟩, ?_⟩
          rw [afterTurn_of_idle s hf hidle]
      · rintro ⟨hsmooth, rfl⟩
        have htake := hsmooth.take hf hg
        refine ⟨_, ⟨htake, rfl⟩, ?_⟩
        by_cases hd : out.answer t.place = .data
        · have hr := hruns.trans (decide_eq_true hd)
          simp only [hd, decide_true, if_true, inline_ok_iff]
          exact ⟨fun hk => ⟨htake.1, hsmooth.respond hr hk⟩, afterTurn_of_runs s hf hr⟩
        · simp only [hd, decide_false, Bool.false_eq_true, if_false, pure_eq_ok]
          exact afterTurn_of_idle s hf (hruns.trans (decide_eq_false hd))

/-! ## All turns of a pass -/

def SmoothAll (out : Outside) : List Turn → (Handle → Bool) → Prop
  | [], _ => True
  | t :: rest, valid => Smooth out valid t ∧ SmoothAll out rest (validAfter out t valid)

/-- The loop goes through exactly when no turn raises, and then does what each turn does. -/
theorem takeTurns_ok_iff {out : Outside} {turns : List Turn} {s s' : World}
    (hrun : ∀ t ∈ turns, canRun s.running t.waitable.group = true)
    (hready : ∀ t ∈ turns, s.executor.waitSet.ready t.waitable.kind t.slot = found out t) :
    takeTurns out (inline out) turns s = .ok s' ↔
      SmoothAll out turns s.valid ∧ s' = turns.foldl (afterTurn out) s := by
  induction turns generalizing s with
  | nil => simp [takeTurns, SmoothAll, eq_comm]
  | cons t rest ih =>
    have hturn := @takeTurn_ok_iff out t s
    have hrest := @ih (afterTurn out s t) (fun u hu => hrun u (List.mem_cons_of_mem _ hu))
      (fun u hu => hready u (List.mem_cons_of_mem _ hu))
    simp only [takeTurns, bind_eq_ok, hturn (hrun t (List.mem_cons_self ..))
      (hready t (List.mem_cons_self ..)), SmoothAll, List.foldl_cons]
    constructor
    · rintro ⟨u, ⟨hsmooth, rfl⟩, hu⟩
      obtain ⟨hall, rfl⟩ := hrest.mp hu
      exact ⟨⟨hsmooth, hall⟩, rfl⟩
    · rintro ⟨⟨hsmooth, hall⟩, rfl⟩
      exact ⟨_, ⟨hsmooth, rfl⟩, hrest.mpr ⟨hall, rfl⟩⟩

theorem foldl_log (out : Outside) (turns : List Turn) (s : World) :
    (turns.foldl (afterTurn out) s).log = s.log ++ turns.flatMap (eventsOf out) := by
  induction turns generalizing s with
  | nil => simp
  | cons t rest ih => rw [List.foldl_cons, ih, List.flatMap_cons, ← List.append_assoc]; rfl

/-- What a callback destroyed stays invalid to the end of the pass. -/
theorem foldl_valid {out : Outside} {turns : List Turn} {s : World} {h : Handle}
    (hv : (turns.foldl (afterTurn out) s).valid h = true) :
    s.valid h = true ∧ ∀ t ∈ turns, runs out t = true → h ∉ out.destroys t.place := by
  induction turns generalizing s with
  | nil => exact ⟨hv, fun t ht => by cases ht⟩
  | cons t rest ih =>
    obtain ⟨hone, hrest⟩ := ih hv
    have hsplit : s.valid h = true ∧ (runs out t = true → h ∉ out.destroys t.place) := by
      simp only [afterTurn, validAfter] at hone
      cases hr : runs out t with
      | false => exact ⟨by simpa [hr] using hone, by simp⟩
      | true => simpa [hr] using hone
    refine ⟨hsplit.1, fun u hu => ?_⟩
    rcases List.mem_cons.mp hu with rfl | hu
    · exact hsplit.2
    · exact hrest u hu

theorem place_inj {turns : List Turn} (hsorted : turns.Pairwise fun t u => t.place < u.place)
    {t u : Turn} (ht : t ∈ turns) (hu : u ∈ turns) (h : t.place = u.place) : t = u := by
  have hnodup : (turns.map Turn.place).Nodup := List.pairwise_map.mpr (hsorted.imp Nat.ne_of_lt)
  exact List.inj_on_of_nodup_map hnodup ht hu h

theorem taken_mem_eventsOf {out : Outside} {n : Nat} {t : Turn} :
    .taken n ∈ eventsOf out t ↔ found out t = true ∧ n = t.place := by
  unfold eventsOf
  cases found out t <;> cases runs out t <;> simp

theorem ran_mem_eventsOf {out : Outside} {n : Nat} {t : Turn} :
    .ran n ∈ eventsOf out t ↔ runs out t = true ∧ n = t.place := by
  unfold eventsOf
  cases found out t <;> cases runs out t <;> simp

/-- The events of a turn are those at its place. -/
theorem mem_events_iff {out : Outside} {event : Nat → Event} {P : Turn → Prop}
    (hevent : ∀ {n t}, event n ∈ eventsOf out t ↔ P t ∧ n = t.place) {turns : List Turn}
    (hsorted : turns.Pairwise fun t u => t.place < u.place) {t : Turn} (ht : t ∈ turns) :
    event t.place ∈ turns.flatMap (eventsOf out) ↔ P t := by
  constructor
  · intro h
    obtain ⟨u, hu, he⟩ := List.mem_flatMap.mp h
    obtain ⟨hP, hplace⟩ := hevent.mp he
    exact place_inj hsorted ht hu hplace ▸ hP
  · intro hP
    exact List.mem_flatMap.mpr ⟨t, ht, hevent.mpr ⟨hP, rfl⟩⟩

theorem smoothAll_of_undisturbed {out : Outside} {turns : List Turn} {valid : Handle → Bool}
    (h : Undisturbed out turns)
    (hvalid : ∀ t ∈ turns, found out t → valid t.waitable.handle = true) :
    SmoothAll out turns valid := by
  induction turns generalizing valid with
  | nil => trivial
  | cons t rest ih =>
    obtain ⟨hlate, hrest⟩ := List.pairwise_cons.mp h.no_late_turn
    have ht : t ∈ t :: rest := List.mem_cons_self ..
    constructor
    · exact ⟨fun hf hg => ⟨hvalid t ht hf, h.no_refusal t ht hf hg⟩,
        fun hr hk => ⟨h.no_own_service t ht hr hk, h.no_refused_response t ht hr hk⟩⟩
    · apply ih
      · exact ⟨hrest, fun u hu => h.no_refusal u (List.mem_cons_of_mem _ hu),
          fun u hu => h.no_own_service u (List.mem_cons_of_mem _ hu),
          fun u hu => h.no_refused_response u (List.mem_cons_of_mem _ hu)⟩
      · intro u hu hf
        have hv := hvalid u (List.mem_cons_of_mem _ hu) hf
        unfold validAfter
        split
        · rename_i hr
          simpa [hv] using hlate u hu hr hf
        · exact hv

theorem smooth_of_smoothAll {out : Outside} {turns : List Turn} {valid : Handle → Bool}
    (h : SmoothAll out turns valid) {t : Turn} (ht : t ∈ turns) : ∃ v, Smooth out v t := by
  induction turns generalizing valid with
  | nil => cases ht
  | cons u rest ih =>
    rcases List.mem_cons.mp ht with rfl | ht
    · exact ⟨valid, h.1⟩
    · exact ih h.2 ht

/-- The world in which a pass from `s` begins its takes, with the wait set `ws`. -/
def begun (s : World) (ws : WaitSet) : World :=
  { s with
    executor := ⟨(s.executor.liveWaitables s.valid).1.waitables, ws, s.executor.wakeup⟩
    log := [] }

/-- A prepared pass that rcl refuses nothing gets past its wait, which answers for each turn what
rcl reports of it. -/
theorem spinOnce_eq {s : World} (hs : Prepared s) {out : Outside}
    (hfilled : Grants out.codes s.eligible s.executor.waitSet) (hwaited : out.waitRet = none) :
    ∃ ws, (∀ t ∈ turnsOf s, ws.ready t.waitable.kind t.slot =
        (out.woken && out.ready t.waitable.kind t.slot)) ∧
      spinOnce out s = if out.woken && out.contextOk then
          takeTurns out (inline out) (turnsOf s) (begun s ws) >>= fun u => .ok (u, true)
        else .ok (begun s ws, false) := by
  obtain ⟨records, hb⟩ := hs.books
  have hshort : s.eligible.length + 1 < 2 ^ 64 :=
    Nat.lt_of_le_of_lt (Nat.succ_le_succ (length_eligible_le ..)) hs.short
  obtain ⟨ws₁, ws, hfill, hwait, hb₂⟩ := fill_wait_books s.valid s.executor.wakeup hb hshort
    hs.wakeup (fun w hw => eligible_valid hw) hfilled out.woken out.ready
  refine ⟨ws, ?_, ?_⟩
  · intro t ht
    have hmem : (⟨t.waitable.held, t.slot, true⟩ : Record) ∈
        filledRecords s.executor.wakeup s.eligible :=
      List.mem_cons_of_mem _ (List.mem_map.mpr ⟨_, mem_zip_of_mem_turnsFrom ht, rfl⟩)
    have hready := hb₂.ready_slot (List.mem_map_of_mem hmem)
    simpa [settle, Waitable.held] using hready
  · unfold spinOnce Executors.pass
    simp only [liveWaitables_wakeup, liveWaitables_waitSet, hfill, ok_bind, hwaited, hwait]
    cases out.woken with
    | false => rfl
    | true => cases out.contextOk with
      | false => rfl
      | true => rfl

/-- A pass that goes through has been refused no call of its fill and its wait. -/
theorem granted_of_spinOnce {s : World} (hs : Prepared s) {out : Outside} {r : World × Bool}
    (h : spinOnce out s = .ok r) :
    Grants out.codes s.eligible s.executor.waitSet ∧ out.waitRet = none := by
  have hshort : s.eligible.length + 1 < 2 ^ 64 :=
    Nat.lt_of_le_of_lt (Nat.succ_le_succ (length_eligible_le ..)) hs.short
  obtain ⟨⟨ws₁, idx, slots⟩, hfill, h⟩ := bind_eq_ok.mp h
  obtain ⟨⟨woken, ws⟩, hwait, -⟩ := bind_eq_ok.mp h
  rw [liveWaitables_wakeup, liveWaitables_waitSet] at hfill
  exact ⟨(fill_entered hshort hfill).1, (wait_eq_ok.mp hwait).1.2⟩

/-! ## The pass -/

/-- Turns are in the order of their places, and their groups are free. -/
theorem turnsOf_sorted (s : World) : (turnsOf s).Pairwise fun t u => t.place < u.place :=
  turnsFrom_sorted ..

theorem mem_eligible_of_turn {s : World} {t : Turn} (ht : t ∈ turnsOf s) :
    t.waitable ∈ s.eligible :=
  (List.of_mem_zip (mem_zip_of_mem_turnsFrom ht)).1

theorem not_found_of_idle {out : Outside} (h : (out.woken && out.contextOk) = false) (t : Turn) :
    found out t = false := by
  rw [found, h]
  rfl

/-- A pass that does nothing breaks nothing. -/
theorem unbroken_of_idle {out : Outside} {s s' : World} (hlog : s'.log = [])
    (h : (out.woken && out.contextOk) = false) : Unbroken out s s' := by
  have hnone : ∀ e, e ∉ s'.log := by simp [hlog]
  constructor
  · exact List.pairwise_of_forall fun p q hp => absurd hp (hnone _)
  · intro q _ hf
    exact absurd (hf.symm.trans (not_found_of_idle h q)) (by decide)
  · intro p _ hp
    exact absurd hp (hnone _)

theorem undisturbed_of_idle {out : Outside} {turns : List Turn}
    (h : (out.woken && out.contextOk) = false) : Undisturbed out turns := by
  have hnone : ∀ t, found out t ≠ true := fun t ht =>
    absurd (ht.symm.trans (not_found_of_idle h t)) (by decide)
  constructor
  · exact List.pairwise_of_forall fun p q _ hf => absurd hf (hnone q)
  · exact fun p _ hf => absurd hf (hnone p)
  · exact fun p _ hr => absurd (Bool.and_eq_true_iff.mp hr).1 (hnone p)
  · exact fun p _ hr => absurd (Bool.and_eq_true_iff.mp hr).1 (hnone p)

/-- After a pass that went through, the log says who had a turn and whose callback ran. -/
theorem unbroken_iff {out : Outside} {s : World} {ws : WaitSet} :
    Unbroken out s ((turnsOf s).foldl (afterTurn out) (begun s ws)) ↔
      (turnsOf s).Pairwise fun p q =>
        runs out p → found out q → q.waitable.handle ∉ out.destroys p.place := by
  have hlog : ((turnsOf s).foldl (afterTurn out) (begun s ws)).log =
      (turnsOf s).flatMap (eventsOf out) := by
    rw [foldl_log]
    rfl
  have htaken : ∀ t ∈ turnsOf s, .taken t.place ∈ (turnsOf s).flatMap (eventsOf out) ↔
      found out t = true := fun t ht => mem_events_iff taken_mem_eventsOf (turnsOf_sorted s) ht
  have hran : ∀ t ∈ turnsOf s, .ran t.place ∈ (turnsOf s).flatMap (eventsOf out) ↔
      runs out t = true := fun t ht => mem_events_iff ran_mem_eventsOf (turnsOf_sorted s) ht
  constructor
  · intro h
    have hnot := h.not_taken
    rw [hlog] at hnot
    refine hnot.imp_of_mem fun {p q} hp hq hpq hr hf hd => ?_
    exact hpq ((hran p hp).mpr hr) hd ((htaken q hq).mpr hf)
  · intro h
    constructor
    · rw [hlog]
      refine h.imp_of_mem fun {p q} hp hq hpq hr hd hf => ?_
      exact hpq ((hran p hp).mp hr) ((htaken q hq).mp hf) hd
    · intro q hq hf _
      rw [hlog]
      exact ⟨(htaken q hq).mpr hf, (hran q hq).mpr⟩
    · intro p hp hr e he
      rw [hlog] at hr
      rw [liveWaitables_entries] at he
      exact (foldl_valid (List.mem_filter.mp he).2).2 p hp ((hran p hp).mp hr)

/-- The turns of a pass that gets to them, with their groups free and the slots as rcl reported. -/
theorem takeTurns_begun_iff {out : Outside} {s u : World} {ws : WaitSet}
    (hgo : (out.woken && out.contextOk) = true)
    (hready : ∀ t ∈ turnsOf s, ws.ready t.waitable.kind t.slot =
      (out.woken && out.ready t.waitable.kind t.slot)) :
    takeTurns out (inline out) (turnsOf s) (begun s ws) = .ok u ↔
      SmoothAll out (turnsOf s) s.valid ∧ u = (turnsOf s).foldl (afterTurn out) (begun s ws) := by
  have hwoken : out.woken = true := (Bool.and_eq_true_iff.mp hgo).1
  apply takeTurns_ok_iff
  · intro t ht
    have he : t.waitable ∈ s.eligible := mem_eligible_of_turn ht
    exact eligible_canRun he
  · intro t ht
    rw [show (begun s ws).executor.waitSet = ws from rfl, hready t ht, found, hgo, hwoken]

/-- Turns of which none raises are undisturbed when none is of an entity destroyed before it. -/
theorem undisturbed_of_smoothAll {out : Outside} {turns : List Turn} {valid : Handle → Bool}
    (hsmooth : SmoothAll out turns valid)
    (hlate : turns.Pairwise fun p q =>
      runs out p → found out q → q.waitable.handle ∉ out.destroys p.place) :
    Undisturbed out turns where
  no_late_turn := hlate
  no_refusal := by
    intro t ht hf hg
    obtain ⟨v, hv⟩ := smooth_of_smoothAll hsmooth ht
    exact (hv.take hf hg).2
  no_own_service := by
    intro t ht hr hk
    obtain ⟨v, hv⟩ := smooth_of_smoothAll hsmooth ht
    exact (hv.respond hr hk).1
  no_refused_response := by
    intro t ht hr hk
    obtain ⟨v, hv⟩ := smooth_of_smoothAll hsmooth ht
    exact (hv.respond hr hk).2

/-- Past its fill and its wait a pass comes to what its turns come to. -/
theorem unbroken_iff_undisturbed {s : World} (hs : Prepared s) {out : Outside}
    (hfilled : Grants out.codes s.eligible s.executor.waitSet) (hwaited : out.waitRet = none) :
    (∃ s' r, spinOnce out s = .ok (s', r) ∧ Unbroken out s s') ↔
      Undisturbed out (turnsOf s) := by
  obtain ⟨ws, hready, hspin⟩ := spinOnce_eq hs hfilled hwaited
  cases hgo : out.woken && out.contextOk with
  | false =>
    rw [hgo] at hspin
    exact ⟨fun _ => undisturbed_of_idle hgo, fun _ =>
      ⟨_, _, hspin, unbroken_of_idle rfl hgo⟩⟩
  | true =>
    rw [hgo, if_pos rfl] at hspin
    constructor
    · rintro ⟨s', r, hok, hun⟩
      obtain ⟨u, hu, hend⟩ := bind_eq_ok.mp (hspin.symm.trans hok)
      obtain ⟨hsmooth, rfl⟩ := (takeTurns_begun_iff hgo hready).mp hu
      obtain rfl := (Prod.mk.inj (Except.ok.inj hend)).1
      exact undisturbed_of_smoothAll hsmooth (unbroken_iff.mp hun)
    · intro h
      have hsmooth : SmoothAll out (turnsOf s) s.valid := smoothAll_of_undisturbed h
        fun t ht _ => eligible_valid (mem_eligible_of_turn ht)
      refine ⟨(turnsOf s).foldl (afterTurn out) (begun s ws), true, ?_,
        unbroken_iff.mpr h.no_late_turn⟩
      rw [hspin, (takeTurns_begun_iff hgo hready).mpr ⟨hsmooth, rfl⟩]
      rfl

/-- One pass goes through, with destroyed entities passed over and all others served, exactly when
rcl refuses neither its fill nor its wait, no callback destroys an entity whose ready slot is still
to be read, and no take or response fails. -/
theorem spinOnce_unbroken_iff {s : World} (hs : Prepared s) (out : Outside) :
    (∃ s' r, spinOnce out s = .ok (s', r) ∧ Unbroken out s s') ↔
      (Grants out.codes s.eligible s.executor.waitSet ∧ out.waitRet = none) ∧
        Undisturbed out (turnsOf s) := by
  constructor
  · rintro ⟨s', r, hok, hun⟩
    obtain ⟨hfilled, hwaited⟩ := granted_of_spinOnce hs hok
    exact ⟨⟨hfilled, hwaited⟩, (unbroken_iff_undisturbed hs hfilled hwaited).mp ⟨s', r, hok, hun⟩⟩
  · rintro ⟨⟨hfilled, hwaited⟩, h⟩
    exact (unbroken_iff_undisturbed hs hfilled hwaited).mpr h

/-! ### Two timers -/

/-- Timers 1 and 2 are registered; the wakeup guard is 0. -/
def twoTimers (ex : Executor) : World where
  valid := fun _ => true
  running := fun _ => 0
  executor := (ex.add (timer 0 1)).add (timer 0 2)
  log := []

/-- Everything is ready, nothing is refused, and the callback at a place destroys what `destroys`
says. -/
def allReady (destroys : Nat → List Handle) : Outside where
  codes := .granted
  waitRet := none
  woken := true
  ready := fun _ _ => true
  contextOk := true
  answer := fun _ => .data
  response := fun _ => none
  destroys := destroys

theorem twoTimers_prepared {ex : Executor} (h : Executor.create true 0 = .ok ex) :
    Prepared (twoTimers ex) := by
  obtain ⟨hbooks, hempty, -⟩ := Executor.books_of_create h
  refine ⟨⟨[], hbooks⟩, rfl, ?_⟩
  simp only [twoTimers, Executor.add, Registry.push, hempty]
  decide

/-- The second timer is called although the first one's callback has destroyed it. -/
theorem second_timer_raises : ∃ ex, Executor.create true 0 = .ok ex ∧ Prepared (twoTimers ex) ∧
    spinOnce (allReady fun i => if i = 0 then [2] else []) (twoTimers ex) =
      .error (.message "rcl_timer_call" "handle has been destroyed") ∧
    ¬ ∃ s' r, spinOnce (allReady fun i => if i = 0 then [2] else []) (twoTimers ex) = .ok (s', r) ∧
      Unbroken (allReady fun i => if i = 0 then [2] else []) (twoTimers ex) s' := by
  obtain ⟨ex, hex⟩ := Executor.exists_create 0
  have hraises : spinOnce (allReady fun i => if i = 0 then [2] else []) (twoTimers ex) =
      .error (.message "rcl_timer_call" "handle has been destroyed") := by
    obtain rfl := Except.ok.inj hex
    rfl
  refine ⟨ex, hex, twoTimers_prepared hex, hraises, ?_⟩
  rintro ⟨s', r, hok, -⟩
  rw [hraises] at hok
  cases hok

theorem spinOnce_unbroken_second_destroys : ∃ ex, Executor.create true 0 = .ok ex ∧
    ∃ s' r, spinOnce (allReady fun i => if i = 1 then [1] else []) (twoTimers ex) = .ok (s', r) ∧
      Unbroken (allReady fun i => if i = 1 then [1] else []) (twoTimers ex) s' := by
  obtain ⟨ex, hex⟩ := Executor.exists_create 0
  refine ⟨ex, hex, (spinOnce_unbroken_iff (twoTimers_prepared hex) _).mpr
    ⟨⟨grants_granted .., rfl⟩, ?_⟩⟩
  obtain rfl := Except.ok.inj hex
  constructor
  · decide
  · intro p _ _ _ why h
    cases h
  · decide
  · exact fun _ _ _ _ => rfl

end Destroyed
