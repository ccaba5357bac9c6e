import Mathlib.Logic.Function.Basic
import Rcllean.Runs
import Rcllean.SwapRemoval
import Rcllean.WaitSet

/-!
# The guards a shutdown triggers

A context keeps pointers to the guard conditions to trigger when it shuts
down. Registering appends without looking for the guard in the list, and the
teardown of a guard takes one pointer out. Over whole runs the list is sound as
long as no guard is torn down while it stands in the list twice, and no longer.
-/
namespace ShutdownGuards

open Function Runs SwapRemoval WaitSets

def maxShutdownGuards : Nat := 32

/-- `shutdown_guards` up to its count, which the array has room for. -/
structure GuardList where
  entries : List Handle
  fits : entries.length ≤ maxShutdownGuards

/-- A guard condition's header. -/
structure GuardCondition where
  valid : Bool
  parent : Handle
  deriving DecidableEq, Repr

/-- A context with the guard conditions of the program, its own and others. `registered` keeps the
registrations that went through. -/
structure State where
  valid : Bool
  rclValid : Bool
  shutdownGuards : GuardList
  guards : Handle → Option GuardCondition
  registered : List Handle

def start : State := ⟨true, true, ⟨[], by decide⟩, fun _ => none, []⟩

/-! ## The calls -/

def GuardList.append (l : GuardList) (g : Handle) (h : l.entries.length < maxShutdownGuards) :
    GuardList :=
  ⟨l.entries ++ [g], by rw [List.length_append]; exact h⟩

def GuardList.remove (l : GuardList) (g : Handle) : GuardList :=
  ⟨removeFirst l.entries g, Nat.le_trans (length_removeFirst_le _ _) l.fits⟩

section
variable (ctx : Handle)

def contextAddShutdownGuard (s : State) (g : Handle) (h : GuardCondition) :
    State × Except Failure Unit :=
  match requireValid s.valid "contextAddShutdownGuard",
      requireValid h.valid "contextAddShutdownGuard" with
  | .error e, _ => (s, .error e)
  | .ok (), .error e => (s, .error e)
  | .ok (), .ok () =>
    if h.parent ≠ ctx then
      (s, .error (.message "contextAddShutdownGuard" "guard condition belongs to another context"))
    else if room : s.shutdownGuards.entries.length < maxShutdownGuards then
      ({ s with
          shutdownGuards := s.shutdownGuards.append g room
          registered := g :: s.registered }, .ok ())
    else
      (s, .error (.message "contextAddShutdownGuard" "too many registered guard conditions"))

/-- `rcllean_guard_condition_fini`: the guard leaves the list of its parent. -/
def guardConditionFini (s : State) (g : Handle) (h : GuardCondition) : State :=
  if h.parent = ctx then { s with shutdownGuards := s.shutdownGuards.remove g } else s

/-- The first teardown of a handle runs its fini. -/
def guardConditionDestroy (s : State) (g : Handle) (h : GuardCondition) : State :=
  if !h.valid then s
  else
    guardConditionFini ctx
      { s with guards := update s.guards g (some { h with valid := false }) } g h

/-- The context is shut down, and what the entries point to is triggered, in their order. -/
def contextShutdown (s : State) : State × List Handle :=
  if !s.valid || !s.rclValid then (s, [])
  else ({ s with rclValid := false }, s.shutdownGuards.entries)

def signalShutdown (s : State) : State × List Handle :=
  if s.valid && s.rclValid then ({ s with rclValid := false }, s.shutdownGuards.entries)
  else (s, [])

/-- A guard is created under the context or another one, or a call is made. -/
inductive Move where
  | create (g parent : Handle)
  | add (g : Handle)
  | destroy (g : Handle)
  | shutdown
  | signal
  deriving DecidableEq, Repr

/-- A call takes a guard that exists; a creation, a handle not in use so far. -/
def step (s : State) : Move → Option State
  | .create g parent => match s.guards g with
    | none => some { s with guards := update s.guards g (some ⟨true, parent⟩) }
    | some _ => none
  | .add g => (s.guards g).map fun h => (contextAddShutdownGuard ctx s g h).1
  | .destroy g => (s.guards g).map fun h => guardConditionDestroy ctx s g h
  | .shutdown => some (contextShutdown s).1
  | .signal => some (signalShutdown s).1

/-! ## What is promised -/

/-- The guard exists and has not been torn down. -/
def Live (s : State) (g : Handle) : Prop := ∃ h, s.guards g = some h ∧ h.valid = true

/-- A shutdown of this state triggers these guards. -/
def TriggersLive (s : State) (triggered : List Handle) : Prop :=
  s.valid = true → s.rclValid = true → ∀ g, g ∈ triggered ↔ g ∈ s.registered ∧ Live s g

structure Sound (s : State) : Prop where
  /-- No entry refers to a guard that has been torn down. -/
  entries_live : ∀ g ∈ s.shutdownGuards.entries, Live s g
  /-- Every registered guard that has not been torn down is in the list. -/
  registered_listed : ∀ g ∈ s.registered, Live s g → g ∈ s.shutdownGuards.entries
  count_le : s.shutdownGuards.entries.length ≤ maxShutdownGuards

/-- What a move promises. -/
structure Keeps (s : State) (e : Move) : Prop where
  sound : ∀ t, step ctx s e = some t → Sound t
  refused : ∀ g h f, e = .add g → s.guards g = some h →
    (contextAddShutdownGuard ctx s g h).2 = .error f →
    (contextAddShutdownGuard ctx s g h).1.shutdownGuards = s.shutdownGuards
  shutdown : e = .shutdown → TriggersLive s (contextShutdown s).2
  signal : e = .signal → TriggersLive s (signalShutdown s).2

/-- A guard that is torn down stands in the list at most once. -/
def ListedOnce (s : State) (e : Move) : Prop :=
  ∀ g, e = .destroy g → Live s g → s.shutdownGuards.entries.count g ≤ 1

/-- Entries come from registrations of the context's own guards, and stay while their guard does. -/
structure Inv (s : State) : Prop where
  entries_registered : ∀ g ∈ s.shutdownGuards.entries, g ∈ s.registered
  registered_own : ∀ g ∈ s.registered, ∃ h, s.guards g = some h ∧ h.parent = ctx
  registered_listed : ∀ g ∈ s.registered, Live s g → g ∈ s.shutdownGuards.entries

theorem start_inv : Inv ctx start := by
  constructor <;> intro g hg <;> cases hg

/-- A registration that goes through appends, and one that does not changes nothing. -/
theorem contextAddShutdownGuard_cases (s : State) (g : Handle) (h : GuardCondition) :
    (∃ f, contextAddShutdownGuard ctx s g h = (s, .error f)) ∨
    ∃ room, h.valid = true ∧ h.parent = ctx ∧ contextAddShutdownGuard ctx s g h =
      ({ s with
          shutdownGuards := s.shutdownGuards.append g room
          registered := g :: s.registered }, .ok ()) := by
  unfold contextAddShutdownGuard
  cases hv : h.valid with
  | false => cases s.valid <;> simp [requireValid]
  | true => cases s.valid with
    | false => simp [requireValid]
    | true =>
      by_cases hp : h.parent = ctx
      · by_cases room : s.shutdownGuards.entries.length < maxShutdownGuards
        · simp [requireValid, hp, room]
        · simp [requireValid, hp, room]
      · simp [requireValid, hp]

/-! ## What one move does -/

/-- A move of the run, by what it leaves behind. -/
inductive Effect (s : State) : Move → State → Prop where
  | create (g parent : Handle) (hnew : s.guards g = none) :
      Effect s (.create g parent) { s with guards := update s.guards g (some ⟨true, parent⟩) }
  | add (g : Handle) (h : GuardCondition) (hg : s.guards g = some h) (hv : h.valid = true)
      (hp : h.parent = ctx) (room : s.shutdownGuards.entries.length < maxShutdownGuards) :
      Effect s (.add g) { s with
        shutdownGuards := s.shutdownGuards.append g room
        registered := g :: s.registered }
  | own (g : Handle) (h : GuardCondition) (hg : s.guards g = some h) (hv : h.valid = true)
      (hp : h.parent = ctx) :
      Effect s (.destroy g) { s with
        guards := update s.guards g (some { h with valid := false })
        shutdownGuards := s.shutdownGuards.remove g }
  | other (g : Handle) (h : GuardCondition) (hg : s.guards g = some h) (hv : h.valid = true)
      (hp : h.parent ≠ ctx) :
      Effect s (.destroy g) { s with
        guards := update s.guards g (some { h with valid := false }) }
  | down (e : Move) (he : e = .shutdown ∨ e = .signal) : Effect s e { s with rclValid := false }
  | refused (e : Move) (he : ∀ g, e = .destroy g → ¬ Live s g) : Effect s e s

theorem step_effect {s t : State} {e : Move} (h : step ctx s e = some t) : Effect ctx s e t := by
  cases e with
  | create g parent =>
    cases hg : s.guards g with
    | some h' => simp [step, hg] at h
    | none =>
      obtain rfl : _ = t := by simpa [step, hg] using h
      exact .create g parent hg
  | add g =>
    obtain ⟨c, hg, rfl⟩ := Option.map_eq_some_iff.mp h
    rcases contextAddShutdownGuard_cases ctx s g c with ⟨f, hf⟩ | ⟨room, hv, hp, hok⟩
    · rw [hf]
      exact .refused _ (by simp)
    · rw [hok]
      exact .add g c hg hv hp room
  | destroy g =>
    obtain ⟨c, hg, rfl⟩ := Option.map_eq_some_iff.mp h
    unfold guardConditionDestroy guardConditionFini
    cases hv : c.valid with
    | false =>
      refine .refused _ fun g' he hlive => ?_
      obtain rfl : g = g' := by simpa using he
      obtain ⟨c', hc', hv'⟩ := hlive
      obtain rfl : c = c' := Option.some.inj (hg.symm.trans hc')
      simp [hv] at hv'
    | true =>
      by_cases hp : c.parent = ctx
      · simpa [hp] using Effect.own g c hg hv hp
      · simpa [hp] using Effect.other g c hg hv hp
  | shutdown =>
    obtain rfl : _ = t := by simpa [step] using h
    unfold contextShutdown
    split
    · exact .refused _ (by simp)
    · exact .down _ (.inl rfl)
  | signal =>
    obtain rfl : _ = t := by simpa [step] using h
    unfold signalShutdown
    split
    · exact .down _ (.inr rfl)
    · exact .refused _ (by simp)

theorem live_create {s t : State} {g parent : Handle}
    (h : t.guards = update s.guards g (some ⟨true, parent⟩)) (x : Handle) :
    Live t x ↔ x = g ∨ Live s x := by
  rw [Live, h, Live]
  by_cases hx : x = g
  · simp [hx]
  · simp [hx]

theorem live_destroy {s t : State} {g : Handle} {c : GuardCondition}
    (h : t.guards = update s.guards g (some { c with valid := false })) (x : Handle) :
    Live t x ↔ x ≠ g ∧ Live s x := by
  rw [Live, h, Live]
  by_cases hx : x = g
  · simp [hx]
  · simp [hx]

variable {ctx} in
/-- A guard whose handle is written over keeps its parent. -/
theorem own_update {guards : Handle → Option GuardCondition} {g x : Handle} {c c' : GuardCondition}
    (hg : guards g = some c) (hp : c'.parent = c.parent)
    (hx : ∃ h, guards x = some h ∧ h.parent = ctx) :
    ∃ h, update guards g (some c') x = some h ∧ h.parent = ctx := by
  by_cases hxg : x = g
  · obtain ⟨h, hh, hpar⟩ := hx
    obtain rfl : c = h := Option.some.inj (hg.symm.trans (hxg ▸ hh))
    exact ⟨c', by simp [hxg], hp.trans hpar⟩
  · simpa [hxg] using hx

theorem inv_step {s t : State} {e : Move} (hI : Inv ctx s) (h : step ctx s e = some t) :
    Inv ctx t := by
  obtain ⟨hent, hown, hlist⟩ := hI
  cases step_effect ctx h with
  | create g parent hnew =>
    have hne : ∀ x ∈ s.registered, x ≠ g := by
      rintro x hx rfl
      obtain ⟨c, hc, -⟩ := hown x hx
      simp [hnew] at hc
    refine ⟨hent, fun x hx => ?_, fun x hx hl => ?_⟩
    · simpa [hne x hx] using hown x hx
    · exact hlist x hx (((live_create rfl x).mp hl).resolve_left (hne x hx))
  | add g c hg hv hp room =>
    refine ⟨fun x hx => ?_, fun x hx => ?_, fun x hx hl => ?_⟩
    · rcases List.mem_append.mp hx with hx | hx
      · exact List.mem_cons_of_mem _ (hent x hx)
      · rw [List.mem_singleton.mp hx]
        exact List.mem_cons_self
    · rcases List.mem_cons.mp hx with rfl | hx
      · exact ⟨c, hg, hp⟩
      · exact hown x hx
    · apply List.mem_append.mpr
      rcases List.mem_cons.mp hx with rfl | hx
      · exact .inr List.mem_cons_self
      · exact .inl (hlist x hx hl)
  | own g c hg hv hp =>
    refine ⟨fun x hx => hent x (mem_of_mem_removeFirst hx), fun x hx => ?_, fun x hx hl => ?_⟩
    · exact own_update hg rfl (hown x hx)
    · obtain ⟨hne, hlive⟩ := (live_destroy rfl x).mp hl
      exact (mem_removeFirst_of_ne hne).mpr (hlist x hx hlive)
  | other g c hg hv hp =>
    refine ⟨hent, fun x hx => own_update hg rfl (hown x hx), fun x hx hl => ?_⟩
    exact hlist x hx ((live_destroy rfl x).mp hl).2
  | down e he => exact ⟨hent, hown, hlist⟩
  | refused e he => exact ⟨hent, hown, hlist⟩

/-- After a move the list is sound exactly when the move tore down no guard listed twice. -/
theorem sound_step_iff {s t : State} {e : Move} (hI : Inv ctx s) (hs : Sound s)
    (h : step ctx s e = some t) : Sound t ↔ ListedOnce s e := by
  have hIt := inv_step ctx hI h
  have hsound : Sound t ↔ ∀ g ∈ t.shutdownGuards.entries, Live t g :=
    ⟨Sound.entries_live, fun hl => ⟨hl, hIt.registered_listed, t.shutdownGuards.fits⟩⟩
  rw [hsound]
  cases step_effect ctx h with
  | create g parent hnew =>
    have hlive : ∀ x ∈ s.shutdownGuards.entries, Live { s with
        guards := update s.guards g (some ⟨true, parent⟩) } x :=
      fun x hx => (live_create rfl x).mpr (.inr (hs.entries_live x hx))
    exact iff_of_true hlive (fun g' he => by cases he)
  | add g c hg hv hp room =>
    refine iff_of_true (fun x hx => ?_) (fun g' he => by cases he)
    rcases List.mem_append.mp hx with hx | hx
    · exact hs.entries_live x hx
    · rw [List.mem_singleton.mp hx]
      exact ⟨c, hg, hv⟩
  | own g c hg hv hp =>
    constructor
    · rintro hlive g' ⟨⟩ -
      by_contra hcount
      have hmem : g ∈ removeFirst s.shutdownGuards.entries g :=
        mem_removeFirst_self.mpr (Nat.lt_of_not_le hcount)
      exact ((live_destroy rfl g).mp (hlive g hmem)).1 rfl
    · intro honce x hx
      have hcount := honce g rfl ⟨c, hg, hv⟩
      have hne : x ≠ g := by
        rintro rfl
        exact absurd (mem_removeFirst_self.mp hx) (Nat.not_lt.mpr hcount)
      exact (live_destroy rfl x).mpr ⟨hne, hs.entries_live x (mem_of_mem_removeFirst hx)⟩
  | other g c hg hv hp =>
    have hnot : g ∉ s.shutdownGuards.entries := by
      intro hm
      obtain ⟨c', hc', hp'⟩ := hI.registered_own g (hI.entries_registered g hm)
      obtain rfl : c = c' := Option.some.inj (hg.symm.trans hc')
      exact hp hp'
    refine iff_of_true (fun x hx => ?_) ?_
    · exact (live_destroy rfl x).mpr ⟨fun hxg => hnot (hxg ▸ hx), hs.entries_live x hx⟩
    · rintro g' ⟨⟩ -
      simp [List.count_eq_zero_of_not_mem hnot]
  | down e he =>
    refine iff_of_true hs.entries_live (fun g' heq => ?_)
    rcases he with rfl | rfl <;> cases heq
  | refused e he =>
    refine iff_of_true hs.entries_live (fun g' heq hlive => absurd hlive (he g' heq))

theorem start_sound : Sound start := by
  constructor
  · intro g hg
    cases hg
  · intro g hg
    cases hg
  · decide

/-- A shutdown of a sound list triggers the registered guards that have not been torn down. -/
theorem triggersLive_entries {s : State} (hI : Inv ctx s) (hs : Sound s) (g : Handle) :
    g ∈ s.shutdownGuards.entries ↔ g ∈ s.registered ∧ Live s g :=
  ⟨fun hg => ⟨hI.entries_registered g hg, hs.entries_live g hg⟩,
    fun hg => hs.registered_listed g hg.1 hg.2⟩

/-- In a sound state a move keeps its promises exactly when it tears down no guard listed twice. -/
theorem keeps_iff {s : State} {e : Move} (hI : Inv ctx s) (hs : Sound s) :
    Keeps ctx s e ↔ ListedOnce s e := by
  constructor
  · rintro h g rfl ⟨c, hg, hv⟩
    have hstep : step ctx s (.destroy g) = some (guardConditionDestroy ctx s g c) := by
      simp [step, hg]
    exact (sound_step_iff ctx hI hs hstep).mp (h.sound _ hstep) g rfl ⟨c, hg, hv⟩
  · intro honce
    constructor
    · intro t ht
      exact (sound_step_iff ctx hI hs ht).mpr honce
    · intro g c f _ _ hf
      rcases contextAddShutdownGuard_cases ctx s g c with ⟨f', h⟩ | ⟨room, -, -, h⟩
      · rw [h]
      · rw [h] at hf
        cases hf
    · intro _ hv hr g
      have htriggered : (contextShutdown s).2 = s.shutdownGuards.entries := by
        simp [contextShutdown, hv, hr]
      rw [htriggered]
      exact triggersLive_entries ctx hI hs g
    · intro _ hv hr g
      have htriggered : (signalShutdown s).2 = s.shutdownGuards.entries := by
        simp [signalShutdown, hv, hr]
      rw [htriggered]
      exact triggersLive_entries ctx hI hs g

/-- All along a run the list is sound, refusals change nothing and shutdowns trigger the registered
live guards, exactly when no move tears down a guard that is listed twice. -/
theorem list_sound_iff (es : List Move) :
    Throughout (step ctx) (Keeps ctx) start es ↔ Throughout (step ctx) ListedOnce start es := by
  have hstep : ∀ s e t, Inv ctx s ∧ Sound s → Keeps ctx s e → step ctx s e = some t →
      Inv ctx t ∧ Sound t :=
    fun s e t hs hk ht => ⟨inv_step ctx hs.1 ht, hk.sound t ht⟩
  exact throughout_congr hstep (fun s e hs => keeps_iff ctx hs.1 hs.2)
    ⟨start_inv ctx, start_sound⟩

end

/-- A guard registered twice is gone after its teardown, and the list still points to it. -/
theorem listed_twice_dangles :
    ¬ ∀ ctx es, Throughout (step ctx) (Keeps ctx) start es := by
  intro h
  obtain ⟨-, h₁⟩ := h 0 [.create 1 0, .add 1, .add 1, .destroy 1]
  obtain ⟨-, h₂⟩ := h₁ _ rfl
  obtain ⟨-, h₃⟩ := h₂ _ rfl
  obtain ⟨c, hc, hv⟩ := ((h₃ _ rfl).1.sound _ rfl).entries_live 1 (by decide)
  obtain rfl : ⟨false, 0⟩ = c := Option.some.inj hc
  cases hv

end ShutdownGuards
