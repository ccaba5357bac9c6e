import Rcllean.Executor

/-!
# A wait set over many passes

One wait set serves every pass of an executor and may be used directly as
well. A run is any sequence of passes and direct uses; beside the wait set it
keeps the slots that were handed out since the set was last emptied.
-/
namespace Passes

open WaitSets Executors Runs

structure State where
  ws : WaitSet
  /-- The slots that adds have returned since the set was last emptied. -/
  records : List Record

/-- A pass is a fill and then a wait; the other moves use the wait set directly. -/
inductive Move where
  | ensureCapacity (cap : WaitSetCapacity)
  | clear
  | add (kind : WaitableKind) (h : Handle)
  | fill (wakeup : Handle) (eligible : List Waitable)
  | wait (woken : Bool) (ready : WaitableKind → Nat → Bool)

/-- Carry out a move, with the entities valid and rcl refusing no call. -/
def perform (s : State) : Move → Except Failure State
  | .ensureCapacity cap => do
    let ws ← s.ws.ensureCapacity cap none
    return ⟨ws, if s.ws.capacity = cap then s.records else []⟩
  | .clear => do
    let ws ← s.ws.clear none
    return ⟨ws, []⟩
  | .add kind h => do
    let (ws, slot) ← s.ws.add kind h true none
    return ⟨ws, s.records ++ [⟨⟨kind, h⟩, slot, true⟩]⟩
  | .fill wakeup eligible => do
    let (ws, wakeupIdx, slots) ← fill (fun _ => true) wakeup .granted eligible s.ws
    return ⟨ws, ⟨⟨.guardCondition, wakeup⟩, wakeupIdx, true⟩ :: recordAll eligible slots⟩
  | .wait woken ready => do
    let (_, ws) ← s.ws.wait none woken ready
    return ⟨ws, s.records.map (settle woken ready)⟩

def step (s : State) (m : Move) : Option State := (perform s m).toOption

/-- Counts stay below 2^64, and direct adds within the capacity. -/
def Within (s : State) : Move → Prop
  | .ensureCapacity cap => ∀ k, cap.count k < 2 ^ 64
  | .add kind _ => (recordsOf kind s.records).length < s.ws.capacity.count kind
  | .fill _ eligible => eligible.length + 1 < 2 ^ 64
  | .clear => True
  | .wait _ _ => True

/-- What holds of the wait set between moves. -/
structure Kept (s : State) : Prop where
  capacity_size : ∀ k, (s.ws.handle.slots k).size = s.ws.capacity.count k
  slots_distinct : ∀ k, ((recordsOf k s.records).map Record.slot).Nodup
  slot_holds : ∀ r ∈ s.records, (s.ws.handle.slots r.held.kind).entry r.slot = r.content
  pointer_held : ∀ k i h, (s.ws.handle.slots k).entry i = some h → ⟨k, h⟩ ∈ s.ws.held

/-- What a fill leaves: every slot of every kind taken, the wakeup and each entity recorded. -/
structure Filled (wakeup : Handle) (eligible : List Waitable) (s : State) : Prop where
  full : ∀ k, (s.ws.handle.slots k).entries.length = (s.ws.handle.slots k).size
  no_gap : ∀ k, ∀ e ∈ (s.ws.handle.slots k).entries, e ≠ none
  recorded : s.records.map Record.held =
    ⟨.guardCondition, wakeup⟩ :: eligible.map Waitable.held

/-- A move goes through and leaves the wait set as it should be. -/
def Sound (s : State) (m : Move) : Prop :=
  ∃ t, perform s m = .ok t ∧ Kept t ∧
    ∀ wakeup eligible, m = .fill wakeup eligible → Filled wakeup eligible t

/-- The records are what the wait set's books say. -/
def OnBooks (s : State) : Prop := Books s.ws s.records

theorem kept_of_books {s : State} (hb : OnBooks s) : Kept s where
  capacity_size := hb.size
  slots_distinct := hb.slots_nodup
  slot_holds := fun _ hr => hb.entry_slot hr
  pointer_held := fun _ _ _ he => hb.pointer_held he

theorem map_held_recordAll {eligible : List Waitable} {slots : List Nat}
    (h : slots.length = eligible.length) :
    (recordAll eligible slots).map Record.held = eligible.map Waitable.held := by
  have hfst : (eligible.zip slots).map Prod.fst = eligible :=
    List.map_fst_zip (Nat.le_of_eq h.symm)
  calc (recordAll eligible slots).map Record.held
      = ((eligible.zip slots).map Prod.fst).map Waitable.held := by
        simp only [recordAll, List.map_map]
        rfl
    _ = eligible.map Waitable.held := by rw [hfst]

theorem kept_filledRecords {wakeup : Handle} {eligible : List Waitable} {r : Record}
    (hr : r ∈ filledRecords wakeup eligible) : r.kept = true := by
  rcases List.mem_cons.mp hr with rfl | hr
  · rfl
  · obtain ⟨p, -, rfl⟩ := List.mem_map.mp hr
    rfl

theorem fill_filled {s : State} (hb : OnBooks s) (wakeup : Handle)
    {eligible : List Waitable} (hshort : eligible.length + 1 < 2 ^ 64) :
    ∃ t, perform s (.fill wakeup eligible) = .ok t ∧ OnBooks t ∧
      Filled wakeup eligible t := by
  obtain ⟨ws, hfill, hcap, -, hb'⟩ := fill_books (fun _ => true) wakeup hb hshort rfl
    (fun _ _ => rfl) (grants_granted eligible s.ws)
  refine ⟨⟨ws, filledRecords wakeup eligible⟩, ?_, hb', ?_⟩
  · simp only [perform, hfill, ok_bind]
    rfl
  · constructor
    · intro k
      rw [hb'.entries, List.length_map, recordsOf_filled, hb'.size, hcap]
    · intro k e he
      rw [hb'.entries] at he
      obtain ⟨r, hr, rfl⟩ := List.mem_map.mp he
      simp [Record.content, kept_filledRecords (mem_recordsOf.mp hr).1]
    · exact congrArg (_ :: ·) (map_held_recordAll (length_slotsOf eligible))

/-- A move within the bounds goes through and keeps the books. -/
theorem perform_books {s : State} (hb : OnBooks s) {m : Move} (hm : Within s m) :
    ∃ t, perform s m = .ok t ∧ OnBooks t ∧
      ∀ wakeup eligible, m = .fill wakeup eligible → Filled wakeup eligible t := by
  cases m with
  | ensureCapacity cap =>
    obtain ⟨ws, hens, -, hb'⟩ := ensureCapacity_books hb hm fun _ => rfl
    refine ⟨⟨ws, _⟩, ?_, hb', by simp⟩
    simp only [perform, hens, ok_bind]
    rfl
  | clear =>
    obtain ⟨ws, hclear, -, hb', -⟩ := clear_books hb
    refine ⟨⟨ws, _⟩, ?_, hb', by simp⟩
    simp only [perform, hclear, ok_bind]
    rfl
  | add kind h =>
    obtain ⟨ws, hadd, -, -, hb'⟩ := add_books (h := h) hb hm
    refine ⟨⟨ws, _⟩, ?_, hb', by simp⟩
    simp only [perform, hadd, ok_bind]
    rfl
  | fill wakeup eligible =>
    obtain ⟨t, ht, hb', hfilled⟩ := fill_filled hb wakeup hm
    refine ⟨t, ht, hb', ?_⟩
    intro wakeup' eligible' he
    obtain ⟨rfl, rfl⟩ := Move.fill.inj he
    exact hfilled
  | wait woken ready =>
    obtain ⟨ws, hwait, -, -, hb'⟩ := wait_books hb woken ready
    refine ⟨⟨ws, _⟩, ?_, hb', by simp⟩
    simp only [perform, hwait, ok_bind]
    rfl

theorem step_books (s : State) (m : Move) (t : State) (hb : OnBooks s)
    (hm : Within s m) (hs : step s m = some t) : OnBooks t := by
  obtain ⟨u, hu, hbu, -⟩ := perform_books hb hm
  rw [step, hu] at hs
  obtain rfl := Option.some.inj hs
  exact hbu

/-- Every run of passes and direct uses within the capacity goes through, with the cached capacity
the size rcl was last given, every recorded slot the one its entity is in, and all of it held. -/
theorem passes_keep_the_books {ctxValid : Bool} {cap : WaitSetCapacity} {ws : WaitSet}
    (hcap : ∀ k, cap.count k < 2 ^ 64) (hcreate : WaitSet.create ctxValid cap = .ok ws)
    (ms : List Move) (hms : Throughout step Within ⟨ws, []⟩ ms) :
    Throughout step Sound ⟨ws, []⟩ ms ∧ ∀ t, run step ⟨ws, []⟩ ms = some t → Kept t := by
  have hb : OnBooks ⟨ws, []⟩ := (create_books hcap hcreate).1
  constructor
  · apply throughout_of_invariant step_books ?_ hb hms
    intro s m hb hm
    obtain ⟨t, ht, hbt, hfilled⟩ := perform_books hb hm
    exact ⟨t, ht, kept_of_books hbt, hfilled⟩
  · intro t ht
    exact kept_of_books (run_invariant_of_throughout step_books hb hms ht)

/-- A subscription and a guard condition waited for, then a direct use of the set for a timer. -/
def mixedMoves : List Move :=
  [.fill 0 [⟨.subscription, ⟨.reentrant, 0⟩, 1⟩, ⟨.guardCondition, ⟨.reentrant, 0⟩, 2⟩],
    .wait true fun k i => k = .guardCondition && i = 1,
    .ensureCapacity { timers := 1 }, .add .timer 3]

theorem mixedMoves_within {ws : WaitSet} (h : WaitSet.create true {} = .ok ws) :
    Throughout step Within ⟨ws, []⟩ mixedMoves := by
  obtain rfl := Except.ok.inj h
  refine (throughout_cons_iff rfl).mpr ⟨by simp [Within], (throughout_cons_iff rfl).mpr ⟨trivial,
    (throughout_cons_iff rfl).mpr ⟨?_, (throughout_cons_iff rfl).mpr ⟨?_, trivial⟩⟩⟩⟩
  · intro k
    cases k <;> decide
  · exact Nat.zero_lt_one

theorem passes_keep_the_books_mixed : ∃ ws, WaitSet.create true {} = .ok ws ∧
    Throughout step Sound ⟨ws, []⟩ mixedMoves := by
  have hcreate : ∃ ws, WaitSet.create true {} = .ok ws := ⟨_, rfl⟩
  obtain ⟨ws, hws⟩ := hcreate
  exact ⟨ws, hws, (passes_keep_the_books default_count_lt hws mixedMoves
    (mixedMoves_within hws)).1⟩

end Passes
