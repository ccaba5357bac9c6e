import Rcllean.JoinedTexts
import Rcllean.ParameterHistory

/-!
# The parameter services

What a node answers to those who ask for its parameters over the wire. Names
may be listed by prefixes, and the dots in a name make it a path: a prefix
stands for the names below it. Each request is answered from the store as it is
then.
-/
namespace ParameterServices

open Parameters ParamOverrides ParameterStore Listings JoinedTexts Runs

/-! ## Requests -/

/-- The value of a parameter, or that it is not set where reading it raises. -/
def valueOf (s : Store) (name : String) : ParameterValue :=
  match s.get name with
  | .ok v => v
  | .error _ => .notSet

def getParameters (s : Store) (names : List String) : List WireValue :=
  names.map fun name => (valueOf s name).toWire

def getParameterTypes (s : Store) (names : List String) : List UInt8 :=
  names.map fun name => (valueOf s name).type.toUInt8

/-- `rcl_interfaces/msg/IntegerRange`. -/
structure IntegerRange where
  from_value : Int64
  to_value : Int64
  step : UInt64

/-- `rcl_interfaces/msg/FloatingPointRange`. -/
structure FloatingPointRange where
  from_value : Float
  to_value : Float
  step : Float

/-- `rcl_interfaces/msg/ParameterDescriptor`; at most one range of each kind. -/
structure WireDescriptor where
  name : String := ""
  type : UInt8 := 0
  description : String := ""
  additional_constraints : String := ""
  read_only : Bool := false
  dynamic_typing : Bool := false
  floating_point_range : List FloatingPointRange := []
  integer_range : List IntegerRange := []

def toWire (d : ParameterDescriptor) : WireDescriptor where
  name := d.name
  type := d.type.toUInt8
  description := d.description
  additional_constraints := d.additionalConstraints
  read_only := d.readOnly
  dynamic_typing := d.dynamicTyping
  floating_point_range := match d.floatingPointRange with
    | none => []
    | some (lo, hi) => [⟨lo, hi, 0.0⟩]
  integer_range := match d.integerRange with
    | none => []
    | some (lo, hi) => [⟨lo, hi, 0⟩]

def describeParameters (s : Store) (names : List String) : List WireDescriptor :=
  names.map fun name => match s.params name with
    | some p => toWire p.descriptor
    | none => { name }

/-- An empty list of prefixes asks for everything. -/
def listParameters (s : Store) (prefixes : List String) : List String :=
  (s.all.filter fun p => prefixes.isEmpty || prefixes.any fun pre =>
    p.name == pre || p.name.startsWith (pre ++ ".")).map Parameter.name

/-! ## Names as paths -/

/-- The parts of a parameter's name between its dots. -/
def pathOf (name : String) : List (List Char) := name.toList.splitOn '.'

/-- A prefix stands for itself and for the names below it. -/
theorem under_iff (pre name : String) :
    (name == pre || name.startsWith (pre ++ ".")) = true ↔ pathOf pre <+: pathOf name := by
  rw [pathOf, pathOf, splitOn_prefix_iff, Bool.or_eq_true, beq_iff_eq, String.startsWith_string_iff,
    String.toList_append, String.toList_inj]
  rfl

/-! ## Lists -/

/-- Where each parameter stands under its own name, the names are answered from the order. -/
theorem listParameters_eq {s : Store} (hsound : Sound s) (hlists : Lists s.order s.params)
    (prefixes : List String) : listParameters s prefixes = s.order.filter fun name =>
      prefixes.isEmpty || prefixes.any fun pre => name == pre || name.startsWith (pre ++ ".") := by
  have hnames : s.all.map Parameter.name = s.order := calc
    s.all.map Parameter.name
    _ = (listing s.params s.order).map (Parameter.name ∘ Prod.snd) := by
      rw [Store.all, ← listing_values, List.map_map]
    _ = (listing s.params s.order).map Prod.fst :=
      List.map_congr_left fun e he => (hsound e.1 e.2 (mem_listing.mp he).2).1
    _ = s.order := hlists.keys
  rw [← hnames, List.filter_map]
  rfl

/-- A node answers the names declared under one of the prefixes, or all when none is given, each
once and in the order of their declaration. -/
theorem list_answers {p : RclParams} {nodeFqn : String} {allowUndeclared : Bool} {store : Store}
    {ms : List Move} {t : Sys} (hcreate : Store.create p nodeFqn allowUndeclared = .ok store)
    (hok : Throughout step Alone (start store) ms) (h : run step (start store) ms = some t)
    (hquiet : ∀ c, (t.pc c).waiting = true) (prefixes : List String) :
    (listParameters t.store prefixes).Sublist t.store.order ∧
      (listParameters t.store prefixes).Nodup ∧
      ∀ name, name ∈ listParameters t.store prefixes ↔ t.store.has name = true ∧
        (prefixes = [] ∨ ∃ pre ∈ prefixes, pathOf pre <+: pathOf name) := by
  have hinv := run_invariant (fun _ _ _ hs h => step_inv hs h) (start_inv (create_sound hcreate)) h
  have hlists := (quiet_listed hcreate hok h hquiet).lists
  rw [listParameters_eq hinv.sound hlists]
  refine ⟨List.filter_sublist, hlists.nodup.filter _, fun name => ?_⟩
  rw [List.mem_filter, hlists.mem_iff, Bool.or_eq_true, List.isEmpty_iff, List.any_eq_true]
  simp only [under_iff]
  rfl

/-- Two parameters are set, one below the prefix and one that only begins like it. -/
def setArm : List Move :=
  [.call 0 (.set false [("arm.speed", .integer 3), ("army", .integer 4)]), .go 0, .go 0, .go 0,
    .go 0, .go 0, .go 0, .go 0, .go 0, .go 0]

theorem list_answers_arm : ∃ t, run step (start openStore) setArm = some t ∧
    t.store.order = ["arm.speed", "army"] ∧ "arm.speed" ∈ listParameters t.store ["arm"] ∧
    "army" ∉ listParameters t.store ["arm"] := by
  obtain ⟨t, ht, horder, hquiet, hspeed⟩ : ∃ t, run step (start openStore) setArm = some t ∧
      t.store.order = ["arm.speed", "army"] ∧ (∀ c, (t.pc c).waiting = true) ∧
      t.store.has "arm.speed" = true := by
    refine ⟨_, rfl, rfl, fun c => ?_, rfl⟩
    match c with
    | 0 => rfl
    | _ + 1 => rfl
  have halone : Throughout step Alone (start openStore) setArm :=
    alone_of_calls [0] (fun _ _ => rfl) (by decide) (by decide)
  have hlist := (list_answers create_openStore halone ht hquiet ["arm"]).2.2
  exact ⟨t, ht, horder, (hlist _).mpr ⟨hspeed, .inr (by decide)⟩,
    fun h => absurd ((hlist _).mp h).2 (by decide)⟩

/-! ## Answers to one another -/

def descriptorOf (s : Store) (name : String) : ParameterDescriptor :=
  match s.params name with
  | some p => p.descriptor
  | none => { name }

theorem admits_valueOf {s : Store} (hsound : Sound s) (name : String) :
    (descriptorOf s name).Admits (valueOf s name) := by
  cases hp : s.params name with
  | none => simpa [descriptorOf, hp] using ⟨.inl rfl, by simp, by simp⟩
  | some q => simpa [descriptorOf, valueOf, Store.get, hp] using (hsound name q hp).2

/-- The answers to three requests for the same names belong together: of every name there is a
value, which is what a client reads, with its type, and a description of constraints it meets. -/
theorem answers_fit {p : RclParams} {nodeFqn : String} {allowUndeclared : Bool} {store : Store}
    {ms : List Move} {t : Sys} (hcreate : Store.create p nodeFqn allowUndeclared = .ok store)
    (h : run step (start store) ms = some t) (names : List String) :
    ∃ answers : List (ParameterValue × ParameterDescriptor),
      (getParameters t.store names).map ParameterValue.ofWire = answers.map Prod.fst ∧
      getParameterTypes t.store names = answers.map (fun a => a.1.type.toUInt8) ∧
      describeParameters t.store names = answers.map (fun a => toWire a.2) ∧
      ∀ a ∈ answers, a.2.check a.1 = .ok () := by
  have hinv := run_invariant (fun _ _ _ hs h => step_inv hs h) (start_inv (create_sound hcreate)) h
  refine ⟨names.map fun name => (valueOf t.store name, descriptorOf t.store name), ?_, ?_, ?_, ?_⟩
  · simp [getParameters, ofWire_toWire]
  · simp [getParameterTypes]
  · rw [describeParameters, List.map_map]
    refine List.map_congr_left fun name _ => ?_
    simp only [Function.comp_apply, descriptorOf]
    split <;> rfl
  · intro a ha
    obtain ⟨name, -, rfl⟩ := List.mem_map.mp ha
    exact (check_ok_iff _ _).mpr (admits_valueOf hinv.sound name)

/-- One name is that of a parameter, the other is not. -/
theorem answers_fit_arm : ∃ t, run step (start openStore) setArm = some t ∧
    getParameterTypes t.store ["army", "leg"] = [2, 0] ∧
    ∃ answers : List (ParameterValue × ParameterDescriptor),
      (getParameters t.store ["army", "leg"]).map ParameterValue.ofWire = answers.map Prod.fst ∧
      ∀ a ∈ answers, a.2.check a.1 = .ok () := by
  obtain ⟨t, ht, htypes⟩ : ∃ t, run step (start openStore) setArm = some t ∧
      getParameterTypes t.store ["army", "leg"] = [2, 0] := ⟨_, rfl, rfl⟩
  obtain ⟨answers, hvalues, -, -, hcheck⟩ := answers_fit create_openStore ht ["army", "leg"]
  exact ⟨t, ht, htypes, answers, hvalues, hcheck⟩

end ParameterServices
