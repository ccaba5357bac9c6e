import Rcllean.Ownership
import Rcllean.WaitSet

/-!
# The shim's calls and their memory

A message crosses into C in memory of the shim's. A call that sends or
serializes allocates a buffer, initializes a message in it, converts into it,
and finalizes and frees it before it returns; an entity that takes keeps a
buffer from its creation to its fini. Command lines cross in an array of
pointers and are parsed into something rcl wants finalized. Any of the steps
may fail.
-/
namespace ShimCalls

open Ownership WaitSets Function

/-- What is at an address: memory from `calloc`, memory with a message initialized in it, a
serialized message, parsed arguments, or an array of strings of rcl's. -/
inductive Content where
  | blank | message | serialized | arguments | strings
  deriving DecidableEq, Repr

variable {V : Type}

/-- What the outside comes back with; of its parts a call reads those of the function called. -/
structure Answer (V : Type) where
  /-- The code rcl or rmw returns. -/
  ret : Nat
  /-- Whether `from_lean`, or the allocation of a handle, went through. -/
  converted : Bool
  guid : List UInt8
  sequence : Int64
  bytes : List UInt8
  strings : List String
  /-- What `to_lean` gives: a value, or the error of one that violates a bound. -/
  value : Except Failure V

/-- What a call returns to Lean. -/
inductive Returned (V : Type) where
  | unit
  | none
  | message (m : V)
  | response (sequence : Int64) (m : V)
  | request (guid : List UInt8) (sequence : Int64) (m : V)
  | sequence (n : Int64)
  | bytes (bs : List UInt8)
  | strings (ss : List String)
  /-- A handle whose entity keeps the buffer. -/
  | entity (buffer : Nat)
  deriving DecidableEq, Repr

abbrev Outcome (V : Type) := Except Failure (Returned V)

abbrev Call (V : Type) := Code Content (Answer V) (Outcome V)

def fail (fn text : String) : Call V := .ret (.error (.message fn text))

/-- Return `r` when rcl returned `RCL_RET_OK`. -/
def checking (fn : String) (ret : Nat) (r : Returned V) : Call V :=
  if ret = 0 then .ret (.ok r) else .ret (.error (.code fn ret))

def requiring (valid : Bool) (fn : String) (k : Call V) : Call V :=
  match requireValid valid fn with
  | .error why => .ret (.error why)
  | .ok _ => k

/-- The body of the calls that send: `calloc`, `init`, `from_lean`, the call to rcl, and out. -/
def send (fn text : String) (result : Answer V → Returned V) : Call V :=
  .acquire .blank fun
    | .error _ => fail fn "out of memory"
    | .ok buf => .convert buf .blank .message fun
      | false => .release buf .blank (fail fn "message init failed")
      | true => .ask [(buf, .message)] fun lean =>
        if lean.converted then
          .ask [(buf, .message)] fun rcl =>
            .become buf .message .blank (.release buf .blank (checking fn rcl.ret (result rcl)))
        else .become buf .message .blank (.release buf .blank (fail fn text))

def publisherPublish (valid : Bool) : Call V :=
  requiring valid "rcl_publish" (send "rcl_publish" "converting the message failed" fun _ => .unit)

def clientSendRequest (valid : Bool) : Call V :=
  requiring valid "rcl_send_request"
    (send "rcl_send_request" "converting the request failed" fun rcl => .sequence rcl.sequence)

def serviceSendResponse (valid : Bool) (guid : List UInt8) : Call V :=
  requiring valid "rcl_send_response"
    (if guid.length ≠ 16 then fail "rcl_send_response" "request header GUID must be 16 bytes"
    else send "rcl_send_response" "converting the response failed" fun _ => .unit)

/-- Serializing needs no entity; the type record has to be a generated one. -/
def msgSerialize (typed : Bool) : Call V :=
  if typed then
    .acquire .blank fun
      | .error _ => fail "serialize" "out of memory"
      | .ok buf => .convert buf .blank .message fun
        | false => .release buf .blank (fail "serialize" "message init failed")
        | true => .ask [(buf, .message)] fun lean =>
          if lean.converted then
            .acquire .serialized fun
              | .error init => .become buf .message .blank (.release buf .blank
                  (.ret (.error (.code "rmw_serialized_message_init" init.ret))))
              | .ok wire => .ask [(buf, .message), (wire, .serialized)] fun rmw =>
                .become buf .message .blank (.release buf .blank
                  (if rmw.ret = 0 then
                    .ask [(wire, .serialized)] fun raw =>
                      .release wire .serialized (.ret (.ok (.bytes raw.bytes)))
                  else
                    .release wire .serialized (.ret (.error (.code "rmw_serialize" rmw.ret)))))
          else .become buf .message .blank
            (.release buf .blank (fail "serialize" "converting the message failed"))
  else fail "serialize" "not a generated message type record"

/-- A buffer that cannot be initialized is reported as one that could not be had. -/
def msgDeserialize (typed : Bool) : Call V :=
  if typed then
    .acquire .serialized fun
      | .error init => .ret (.error (.code "rmw_serialized_message_init" init.ret))
      | .ok wire => .ask [(wire, .serialized)] fun _ =>
        .acquire .blank fun
          | .error _ => .release wire .serialized (fail "deserialize" "out of memory")
          | .ok buf => .convert buf .blank .message fun
            | false => .release buf .blank
                (.release wire .serialized (fail "deserialize" "out of memory"))
            | true => .ask [(wire, .serialized), (buf, .message)] fun rmw =>
              .release wire .serialized
                (if rmw.ret = 0 then
                  .ask [(buf, .message)] fun lean => .become buf .message .blank
                    (.release buf .blank (.ret (lean.value.map .message)))
                else .become buf .message .blank (.release buf .blank
                  (.ret (.error (.code "rmw_deserialize" rmw.ret)))))
  else fail "deserialize" "not a generated message type record"

/-! ## Command lines -/

/-- `free`, which takes `NULL` too. -/
def freeMaybe (old : Content) : Option Nat → Call V → Call V
  | none, k => k
  | some b, k => .release b old k

/-- Parsed, and with the pointers freed whatever came of it. -/
def parseArguments (argv : Option Nat) (k : Nat → Call V) : Call V :=
  .ask (argv.toList.map (·, .blank)) fun _ =>
    .acquire .arguments fun
      | .error rcl => freeMaybe .blank argv (.ret (.error (.code "rcl_parse_arguments" rcl.ret)))
      | .ok parsed => k parsed

/-- `rcllean_argv_of`: no arguments need no pointers. -/
def argvOf (argc : Nat) (oom : Call V) (k : Option Nat → Call V) : Call V :=
  if argc = 0 then k none
  else .acquire .blank fun
    | .error _ => oom
    | .ok argv => k (some argv)

/-- The handle and the rcl node; rcl copies the arguments, which go on either outcome. -/
def nodeInit (parsed : Option Nat) : Call V :=
  .ask [] fun handle =>
    if handle.converted then
      .ask (parsed.toList.map (·, .arguments)) fun rcl =>
        freeMaybe .arguments parsed (checking "rcl_node_init" rcl.ret .unit)
    else freeMaybe .arguments parsed (fail "rcl_node_init" "out of memory")

def nodeCreate (contextOk : Bool) (argc : Nat) : Call V :=
  if contextOk then
    argvOf argc (fail "rcl_node_init" "out of memory") fun
      | none => nodeInit none
      | some argv => parseArguments (some argv) fun parsed =>
        .release argv .blank (nodeInit (some parsed))
  else fail "rcl_node_init" "context is not valid"

/-- What is left may be no array at all. The pointers have to last until it has been copied. -/
def removeRosArguments (argc : Nat) : Call V :=
  argvOf argc (fail "rcl_parse_arguments" "out of memory") fun argv =>
    parseArguments argv fun parsed =>
      .ask ((parsed, .arguments) :: argv.toList.map (·, .blank)) fun _ =>
        .acquire .strings fun
          | .error rcl => freeMaybe .blank argv (.release parsed .arguments
              (checking "rcl_remove_ros_arguments" rcl.ret (.strings [])))
          | .ok rest => freeMaybe .blank argv (.release parsed .arguments
              (.ask [(rest, .strings)] fun raw =>
                .release rest .strings (.ret (.ok (.strings raw.strings)))))

/-! ## Entities that keep a buffer -/

inductive EntityKind where
  | subscription | client | service
  deriving DecidableEq, Repr

/-- The body of the creates. When rcl refuses, the handle is given up and its fini frees. -/
def create (fn kindOfType : String) (nodeValid typed : Bool) : Call V :=
  requiring nodeValid fn
    (if typed then
      .ask [] fun handle =>
        if handle.converted then
          .acquire .blank fun
            | .error _ => fail fn "out of memory"
            | .ok buf => .ask [] fun rcl =>
              if rcl.ret = 0 then .ret (.ok (.entity buf))
              else .release buf .blank (.ret (.error (.code fn rcl.ret)))
        else fail fn "out of memory"
    else fail fn ("not a generated " ++ kindOfType ++ " type record"))

def subscriptionCreate (nodeValid typed : Bool) : Call V :=
  create "rcl_subscription_init" "message" nodeValid typed
def clientCreate (nodeValid typed : Bool) : Call V :=
  create "rcl_client_init" "service" nodeValid typed
def serviceCreate (nodeValid typed : Bool) : Call V :=
  create "rcl_service_init" "service" nodeValid typed

/-- The body of the takes. An empty queue is no error: rcl says so by a code of its own. -/
def take (fn : String) (takeFailed : Nat) (result : Answer V → V → Returned V) (buf : Nat) :
    Call V :=
  .convert buf .blank .message fun
    | false => fail fn "message init failed"
    | true => .ask [(buf, .message)] fun rcl =>
      if rcl.ret = 0 then
        .ask [(buf, .message)] fun lean =>
          .become buf .message .blank (.ret (lean.value.map (result rcl)))
      else .become buf .message .blank
        (if rcl.ret = takeFailed then .ret (.ok .none) else .ret (.error (.code fn rcl.ret)))

def subscriptionTake (buf : Nat) : Call V := take "rcl_take" 401 (fun _ m => .message m) buf
def clientTakeResponse (buf : Nat) : Call V :=
  take "rcl_take_response" 501 (fun info m => .response info.sequence m) buf
def serviceTakeRequest (buf : Nat) : Call V :=
  take "rcl_take_request" 601 (fun info m => .request info.guid info.sequence m) buf

/-- The buffer goes first, then the rcl object, whose answer is dropped. -/
def entityFini (buf : Nat) : Call V := .release buf .blank (.ask [] fun _ => .ret (.ok .unit))

def createOf : EntityKind → Bool → Bool → Call V
  | .subscription => subscriptionCreate
  | .client => clientCreate
  | .service => serviceCreate

def takeOf : EntityKind → Nat → Call V
  | .subscription => subscriptionTake
  | .client => clientTakeResponse
  | .service => serviceTakeRequest

def takeFn : EntityKind → String
  | .subscription => "rcl_take"
  | .client => "rcl_take_response"
  | .service => "rcl_take_request"

/-! ## Each call on its own -/

def single (b : Nat) : Cells Content := update Cells.empty b (some .blank)

@[simp] theorem update_empty_none (b : Nat) :
    update (Cells.empty : Cells Content) b none = Cells.empty :=
  update_eq_self b Cells.empty

/-- With nothing beside the two cells, nothing is left once they are released. -/
theorem update_none_none {own : Cells Content} {b d : Nat}
    (h : ∀ x, x ≠ b → x ≠ d → own x = none) :
    update (update own b none) d none = Cells.empty := by
  funext x
  by_cases hd : x = d
  · simp [hd]
  · by_cases hb : x = b
    · subst hb
      simp [hd]
    · simp [hb, hd, h x hb hd]

theorem requiring_safe {post : Outcome V → Cells Content → Prop} {own : Cells Content}
    {k : Call V} (h : ∀ why, post (.error why) own) (hk : Safe post k own) (valid : Bool)
    (fn : String) : Safe post (requiring valid fn k) own := by
  cases valid with
  | false => exact h _
  | true => exact hk

/-- Nothing is left of a call. -/
def Leaves (own : Cells Content) : Outcome V → Cells Content → Prop := fun _ left => left = own

theorem checking_leaves {own left : Cells Content} (h : own = left) (fn : String) (ret : Nat)
    (r : Returned V) : Safe (Leaves left) (checking fn ret r) own := by
  unfold checking
  split
  · exact h
  · exact h

/-- However a send comes out, nothing is left of it. -/
theorem send_safe (fn text : String) (result : Answer V → Returned V) :
    Safe (Leaves Cells.empty) (send fn text result) Cells.empty := by
  refine ⟨fun a => rfl, fun buf _ => ⟨by simp, ⟨by simp, by simp [fail, Safe, Leaves]⟩,
    by simp, fun lean => safe_ite (fun _ => ?_) fun _ => ?_⟩⟩
  · exact ⟨by simp, fun rcl => ⟨by simp, by simp, checking_leaves (by simp) _ _ _⟩⟩
  · exact ⟨by simp, by simp, by simp [fail, Safe, Leaves]⟩

theorem msgSerialize_safe (typed : Bool) :
    Safe (Leaves Cells.empty) (msgSerialize (V := V) typed) Cells.empty := by
  refine safe_ite (fun _ => ?_) fun _ => rfl
  refine ⟨fun a => rfl, fun buf _ => ⟨by simp, ⟨by simp, by simp [fail, Safe, Leaves]⟩,
    by simp, fun lean => safe_ite (fun _ => ?_) fun _ => ?_⟩⟩
  · refine ⟨fun init => ⟨by simp, by simp, by simp [Safe, Leaves]⟩, fun wire hwire => ?_⟩
    have hne : wire ≠ buf := by
      rintro rfl
      simp at hwire
    refine ⟨by simp [hne.symm], fun rmw => ⟨by simp [hne.symm], by simp, ?_⟩⟩
    refine safe_ite (fun _ => ⟨by simp [hne], fun raw => ⟨by simp [hne], ?_⟩⟩)
      fun _ => ⟨by simp [hne], ?_⟩
    · exact update_none_none fun x hbuf hwire => by simp [hbuf, hwire]
    · exact update_none_none fun x hbuf hwire => by simp [hbuf, hwire]
  · exact ⟨by simp, by simp, by simp [fail, Safe, Leaves]⟩

theorem msgDeserialize_safe (typed : Bool) :
    Safe (Leaves Cells.empty) (msgDeserialize (V := V) typed) Cells.empty := by
  refine safe_ite (fun _ => ?_) fun _ => rfl
  refine ⟨fun init => rfl, fun wire _ => ⟨by simp, fun _ => ⟨fun a => ?_, fun buf hbuf => ?_⟩⟩⟩
  · exact ⟨by simp, by simp [fail, Safe, Leaves]⟩
  · have hne : buf ≠ wire := by
      rintro rfl
      simp at hbuf
    refine ⟨by simp, ⟨by simp, by simp [hne.symm], ?_⟩, by simp [hne.symm], fun rmw => ?_⟩
    · exact update_none_none fun x hbuf hwire => by simp [hbuf, hwire]
    · refine ⟨by simp [hne.symm], safe_ite (fun _ => ?_) fun _ => ?_⟩
      · refine ⟨by simp [hne], fun lean => ⟨by simp [hne], by simp, ?_⟩⟩
        rw [update_idem]
        exact update_none_none fun x hwire hbuf => by simp [hbuf, hwire]
      · refine ⟨by simp [hne], by simp, ?_⟩
        rw [update_idem]
        exact update_none_none fun x hwire hbuf => by simp [hbuf, hwire]

theorem ret_leaves (r : Outcome V) (own : Cells Content) :
    Safe (Leaves own) (.ret r : Call V) own := rfl

/-- The cell of a pointer that may be `NULL`. -/
def optional (old : Content) : Option Nat → Cells Content
  | none => Cells.empty
  | some b => update Cells.empty b (some old)

theorem optional_needs (old : Content) (b : Option Nat) :
    ∀ p ∈ b.toList.map (·, old), optional old b p.1 = some p.2 := by
  cases b with
  | none => simp
  | some b => simp [optional]

/-- Freeing takes the pointer's own cell and no other. -/
theorem freeMaybe_safe {post : Outcome V → Cells Content → Prop} {old : Content} {b : Option Nat}
    {k : Call V} {own left : Cells Content} (hown : ∀ d ∈ b, own d = some old)
    (hleft : ∀ x, left x = if x ∈ b then none else own x) (hk : Safe post k left) :
    Safe post (freeMaybe old b k) own := by
  cases b with
  | none =>
    obtain rfl : left = own := funext fun x => by simpa using hleft x
    exact hk
  | some b =>
    refine ⟨hown b rfl, ?_⟩
    have hupdate : update own b none = left := by
      funext x
      rw [hleft x]
      by_cases hx : x = b
      · simp [hx]
      · simp [hx, Ne.symm hx]
    rw [hupdate]
    exact hk

theorem freeMaybe_optional {old : Content} {b : Option Nat} {k : Call V}
    (hk : Safe (Leaves Cells.empty) k Cells.empty) :
    Safe (Leaves Cells.empty) (freeMaybe old b k) (optional old b) := by
  refine freeMaybe_safe (fun d hd => ?_) (fun x => ?_) hk
  · rw [Option.mem_def] at hd
    simp [hd, optional]
  · cases b with
    | none => rfl
    | some b => by_cases hx : x = b <;> simp [optional, hx, Ne.symm]

theorem argvOf_safe {oom : Call V} {k : Option Nat → Call V}
    (hoom : Safe (Leaves Cells.empty) oom Cells.empty)
    (hk : ∀ argv, Safe (Leaves Cells.empty) (k argv) (optional .blank argv)) (argc : Nat) :
    Safe (Leaves Cells.empty) (argvOf argc oom k) Cells.empty :=
  safe_ite (fun _ => hk none) fun _ => ⟨fun _ => hoom, fun argv _ => hk (some argv)⟩

/-- What is there once the command line is parsed. -/
def parsing (argv : Option Nat) (parsed : Nat) : Cells Content :=
  update (optional .blank argv) parsed (some .arguments)

theorem parseArguments_safe {argv : Option Nat} {k : Nat → Call V}
    (hk : ∀ parsed, optional .blank argv parsed = none →
      Safe (Leaves Cells.empty) (k parsed) (parsing argv parsed)) :
    Safe (Leaves Cells.empty) (parseArguments argv k) (optional .blank argv) := by
  refine ⟨optional_needs _ _, fun _ => ⟨fun rcl => ?_, hk⟩⟩
  exact freeMaybe_optional (ret_leaves _ _)

theorem nodeInit_safe (parsed : Option Nat) :
    Safe (Leaves Cells.empty) (nodeInit (V := V) parsed) (optional .arguments parsed) := by
  refine ⟨by simp, fun handle => safe_ite (fun _ => ?_) fun _ => ?_⟩
  · exact ⟨optional_needs _ _, fun rcl => freeMaybe_optional (checking_leaves rfl _ _ _)⟩
  · exact freeMaybe_optional (ret_leaves _ _)

theorem nodeCreate_safe (contextOk : Bool) (argc : Nat) :
    Safe (Leaves Cells.empty) (nodeCreate (V := V) contextOk argc) Cells.empty := by
  refine safe_ite (fun _ => argvOf_safe (ret_leaves _ _) (fun argv => ?_) argc)
    fun _ => ret_leaves _ _
  cases argv with
  | none => exact nodeInit_safe none
  | some argv =>
    refine parseArguments_safe fun parsed hparsed => ?_
    have hne : parsed ≠ argv := by
      rintro rfl
      simp [optional] at hparsed
    refine ⟨by simp [parsing, optional, hne.symm], ?_⟩
    have hown : update (parsing (some argv) parsed) argv none =
        optional .arguments (some parsed) := by
      rw [parsing, update_comm hne]
      simp [optional]
    rw [hown]
    exact nodeInit_safe (some parsed)

theorem parsing_argv {argv : Option Nat} {parsed : Nat}
    (hparsed : optional .blank argv parsed = none) :
    ∀ d ∈ argv, d ≠ parsed ∧ parsing argv parsed d = some .blank := by
  rintro d rfl
  have hne : d ≠ parsed := by
    rintro rfl
    simp [optional] at hparsed
  exact ⟨hne, by simp [parsing, optional, hne]⟩

/-- What is left once the pointers are freed. -/
theorem parsing_freed {argv : Option Nat} {parsed : Nat}
    (hparsed : optional .blank argv parsed = none) (x : Nat) :
    optional .arguments (some parsed) x = if x ∈ argv then none else parsing argv parsed x := by
  split
  · rename_i hx
    simp [optional, (parsing_argv hparsed x hx).1]
  · rename_i hx
    by_cases hp : x = parsed
    · simp [optional, parsing, hp]
    · cases argv with
      | none => simp [optional, parsing, hp]
      | some b =>
        have hb : x ≠ b := fun heq => hx (by simp [heq])
        simp [optional, parsing, hp, hb]

theorem removeRosArguments_safe (argc : Nat) :
    Safe (Leaves Cells.empty) (removeRosArguments (V := V) argc) Cells.empty := by
  refine argvOf_safe (ret_leaves _ _) (fun argv => ?_) argc
  refine parseArguments_safe fun parsed hparsed => ?_
  have hargv := parsing_argv hparsed
  have hfreed := parsing_freed hparsed
  refine ⟨?_, fun _ => ⟨fun rcl => ?_, fun rest hrest => ?_⟩⟩
  · intro p hp
    rcases List.mem_cons.mp hp with rfl | hp
    · simp [parsing]
    · obtain ⟨d, hd, rfl⟩ := List.mem_map.mp hp
      exact (hargv d (Option.mem_toList.mp hd)).2
  · refine freeMaybe_safe (fun d hd => (hargv d hd).2) hfreed ⟨by simp [optional], ?_⟩
    rw [optional, update_idem, update_empty_none]
    exact checking_leaves rfl _ _ _
  · have hnew : rest ∉ argv := by
      intro hmem
      rw [(hargv rest hmem).2] at hrest
      cases hrest
    have hne : rest ≠ parsed := by
      rintro rfl
      simp [parsing] at hrest
    have hleft : ∀ x, update (optional .arguments (some parsed)) rest (some .strings) x =
        if x ∈ argv then none else update (parsing argv parsed) rest (some .strings) x := by
      intro x
      by_cases hx : x = rest
      · rw [hx, if_neg hnew, update_self, update_self]
      · rw [update_of_ne hx, update_of_ne hx]
        exact hfreed x
    refine freeMaybe_safe (fun d hd => ?_) hleft ⟨by simp [optional, hne.symm], ?_⟩
    · have hd' : d ≠ rest := fun heq => hnew (heq ▸ hd)
      rw [update_of_ne hd']
      exact (hargv d hd).2
    · refine ⟨by simp [hne], fun raw => ⟨by simp [hne], ?_⟩⟩
      exact update_none_none fun x hparsed hrest => by simp [optional, hparsed, hrest]

/-- A buffer is kept only by an entity that is returned. -/
def Kept : Outcome V → Cells Content → Prop
  | .ok (.entity b), own => own = single b
  | _, own => own = Cells.empty

theorem create_safe (fn kindOfType : String) (nodeValid typed : Bool) :
    Safe Kept (create (V := V) fn kindOfType nodeValid typed) Cells.empty := by
  refine requiring_safe (fun why => rfl) ?_ nodeValid fn
  refine safe_ite (fun _ => ?_) fun _ => rfl
  refine ⟨by simp, fun handle => safe_ite (fun _ => ⟨fun a => rfl, fun buf _ => ?_⟩) fun _ => rfl⟩
  refine ⟨by simp, fun rcl => safe_ite (fun _ => rfl) fun _ => ⟨by simp, ?_⟩⟩
  simp [Safe, Kept]

/-- A take leaves the entity's buffer as it found it. -/
theorem take_safe (fn : String) (takeFailed : Nat) (result : Answer V → V → Returned V)
    (buf : Nat) :
    Safe (Leaves (single buf)) (take fn takeFailed result buf) (single buf) := by
  refine ⟨by simp [single], rfl, by simp, fun rcl => safe_ite (fun _ => ?_) fun _ => ?_⟩
  · exact ⟨by simp, fun lean => ⟨by simp, by simp [Safe, Leaves, single]⟩⟩
  · refine ⟨by simp, safe_ite (fun _ => ?_) fun _ => ?_⟩
    · simp [Safe, Leaves, single]
    · simp [Safe, Leaves, single]

theorem entityFini_safe (buf : Nat) :
    Safe (Leaves Cells.empty) (entityFini (V := V) buf) (single buf) :=
  ⟨by simp [single], by simp, fun rcl => by simp [Safe, Leaves, single]⟩

end ShimCalls
