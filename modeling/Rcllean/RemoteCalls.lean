import Rcllean.Client
import Rcllean.WaitSet

/-!
# Calls from end to end

Any number of clients and servers of one service. A server takes a request
with the header that names its caller, and sends what the handler returns
under that header; the middleware hands a client the responses under its own
name. Requests and responses may be lost, repeated and overtaken by others.
-/
namespace RemoteCalls

open Runs Function WaitSets

/-- The name of a client's writer. -/
structure Guid where
  bytes : ByteArray
  size : bytes.size = 16

instance : DecidableEq Guid := fun a b =>
  decidable_of_iff (a.bytes.data = b.bytes.data) <| by
    obtain ⟨⟨a⟩, ha⟩ := a
    obtain ⟨⟨b⟩, hb⟩ := b
    simp

/-- `rmw_request_id_t`. -/
structure Header where
  guid : Guid
  sequence : Int64
  deriving DecidableEq

/-! ## The server's entry points -/

/-- `rcllean_request_header_of`. -/
def requestHeaderOf (guid : ByteArray) (sequence : Int64) : Option Header :=
  if h : guid.size = 16 then some ⟨⟨guid, h⟩, sequence⟩ else none

variable {Req Resp : Type}

/-- The header crosses as bytes and a boxed word. -/
def serviceTakeRequest (valid : Bool) (h : Header) (req : Req) :
    Except Failure (ByteArray × Int64 × Req) := do
  requireValid valid "rcl_take_request"
  return (h.guid.bytes, h.sequence.toUInt64.toInt64, req)

def serviceSendResponse (valid : Bool) (guid : ByteArray) (sequence : Int64) :
    Except Failure Header := do
  requireValid valid "rcl_send_response"
  match requestHeaderOf guid sequence with
  | none => throw (.message "rcl_send_response" "request header GUID must be 16 bytes")
  | some h => return h

/-- What a request is taken with leads back to its caller. -/
theorem requestHeaderOf_header (h : Header) : requestHeaderOf h.guid.bytes h.sequence = some h := by
  rw [requestHeaderOf, dif_pos h.guid.size]

theorem serviceTakeRequest_ok_iff {valid : Bool} {h : Header} {req : Req}
    {r : ByteArray × Int64 × Req} : serviceTakeRequest valid h req = .ok r ↔
      valid = true ∧ r = (h.guid.bytes, h.sequence, req) := by
  cases valid with
  | false => simp [serviceTakeRequest, requireValid]
  | true => simp [serviceTakeRequest, eq_comm]

/-- A response to a request that was taken is sent to its caller, or the server is gone. -/
theorem serviceSendResponse_header {valid : Bool} {h h' : Header}
    (hsend : serviceSendResponse valid h.guid.bytes h.sequence = .ok h') : h' = h := by
  cases valid with
  | false => simp [serviceSendResponse, requireValid] at hsend
  | true => simpa [serviceSendResponse, requestHeaderOf_header, eq_comm] using hsend

/-! ## The system -/

/-- A request that was taken, its handler still to run. -/
structure Action (Req : Type) where
  server : Nat
  guid : ByteArray
  sequence : Int64
  req : Req

structure Sys (Req Resp : Type) where
  clients : Guid → Client.State Resp
  /-- Every request ever sent, and every response. -/
  requests : List (Header × Req)
  responses : List (Header × Resp)
  /-- Whether a server has not been destroyed. -/
  servers : Nat → Bool
  actions : List (Action Req)
  /-- What the handlers were given and what they returned. -/
  handled : List (Action Req × Resp)

def start (servers : Nat → Bool) : Sys Req Resp where
  clients := fun _ => Client.fresh
  requests := []
  responses := []
  servers := servers
  actions := []
  handled := []

inductive Move (Req Resp : Type) where
  /-- A call's send; the rest of the call is a move of the client. -/
  | send (g : Guid) (seq : Int64) (req : Req)
  | client (g : Guid) (m : Client.Move Resp)
  /-- The client is handed one of the responses, for the first time or again. -/
  | take (g : Guid) (i : Nat)
  | serve (server i : Nat)
  /-- A handler returns a response or raises. -/
  | answer (k : Nat) (resp : Option Resp)
  | destroy (server : Nat)

/-- The moves of a client in which nothing is sent and nothing arrives. -/
def inner : Client.Move Resp → Bool
  | .send _ | .take _ => false
  | .register _ | .runAction _ | .fail _ _ | .onComplete _ _ => true

def Sys.setClient (s : Sys Req Resp) (g : Guid) (c : Client.State Resp) : Sys Req Resp :=
  { s with clients := update s.clients g c }

/-- The handler's response is sent; a server that is gone raises, and nothing is. -/
def respond (s : Sys Req Resp) (a : Action Req) (resp : Resp) : Sys Req Resp :=
  let s := { s with handled := s.handled ++ [(a, resp)] }
  match serviceSendResponse (s.servers a.server) a.guid a.sequence with
  | .error _ => s
  | .ok h => { s with responses := s.responses ++ [(h, resp)] }

def step (s : Sys Req Resp) : Move Req Resp → Option (Sys Req Resp)
  | .send g seq req => (Client.step (s.clients g) (.send seq)).map fun c =>
      { s.setClient g c with requests := s.requests ++ [(⟨g, seq⟩, req)] }
  | .client g m =>
    if inner m then (Client.step (s.clients g) m).map (s.setClient g) else none
  | .take g i => match s.responses[i]? with
    | some (h, resp) =>
      if h.guid = g then
        (Client.step (s.clients g) (.take (some (h.sequence.toUInt64.toInt64, resp)))).map
          (s.setClient g)
      else none
    | none => none
  | .serve server i => match s.requests[i]? with
    | some (h, req) => match serviceTakeRequest (s.servers server) h req with
      | .error _ => some s
      | .ok (guid, seq, req) =>
        some { s with actions := s.actions ++ [⟨server, guid, seq, req⟩] }
    | none => none
  | .answer k resp => match s.actions[k]? with
    | some a =>
      let s := { s with actions := s.actions.eraseIdx k }
      match resp with
      | none => some s
      | some resp => some (respond s a resp)
    | none => none
  | .destroy server => some { s with servers := update s.servers server false }

/-! ## What the clients are handed -/

/-- A handler returned the response to the request sent under the header. -/
def Answered (s : Sys Req Resp) (h : Header) (resp : Resp) : Prop :=
  ∃ a, (a, resp) ∈ s.handled ∧ a.guid = h.guid.bytes ∧ a.sequence = h.sequence ∧
    (h, a.req) ∈ s.requests

theorem Answered.mono {s t : Sys Req Resp} {h : Header} {resp : Resp} (ha : Answered s h resp)
    (hreq : s.requests ⊆ t.requests) (hhandled : s.handled ⊆ t.handled) : Answered t h resp := by
  obtain ⟨a, hm, hg, hseq, hsent⟩ := ha
  exact ⟨a, hhandled hm, hg, hseq, hreq hsent⟩

/-- What a client has taken, completed or not, satisfies `P`. -/
def Holds (P : Int64 → Resp → Prop) (c : Client.State Resp) : Prop :=
  (∀ a ∈ c.actions, P a.2.1 a.2.2) ∧ ∀ a ∈ c.completions, P a.2.1 a.2.2

/-- What a client's move does to the numbers it has sent and to what it has taken. -/
inductive Effect (c : Client.State Resp) : Client.Move Resp → Client.State Resp → Prop where
  | sent {seq d} (hfresh : seq ∉ c.sent) (hsent : d.sent = c.sent ++ [seq])
      (hactions : d.actions = c.actions) (hdone : d.completions = c.completions) :
      Effect c (.send seq) d
  | taken {seq resp fut d} (hsent : d.sent = c.sent)
      (hactions : d.actions = c.actions ++ [(fut, seq, resp)])
      (hdone : d.completions = c.completions) : Effect c (.take (some (seq, resp))) d
  | ran {i a d} (ha : a ∈ c.actions) (hsent : d.sent = c.sent)
      (hactions : d.actions = c.actions.eraseIdx i) (hdone : d.completions = c.completions ++ [a]) :
      Effect c (.runAction i) d
  | quiet {m d} (hsent : d.sent = c.sent) (hactions : d.actions = c.actions)
      (hdone : d.completions = c.completions) : Effect c m d

theorem client_effect {c d : Client.State Resp} {m : Client.Move Resp}
    (hs : Client.step c m = some d) : Effect c m d := by
  cases m with
  | send seq =>
    simp only [Client.step, Option.ite_none_left_eq_some, Option.some.injEq] at hs
    obtain ⟨hseq, rfl⟩ := hs
    exact .sent hseq rfl rfl rfl
  | register seq =>
    simp only [Client.step, Option.ite_none_right_eq_some, Option.some.injEq] at hs
    obtain ⟨-, rfl⟩ := hs
    exact .quiet rfl rfl rfl
  | take response => cases response with
    | none =>
      obtain rfl := Option.some.inj hs
      exact .quiet rfl rfl rfl
    | some r =>
      obtain rfl := Option.some.inj hs
      rcases Client.takeResponse_cases c r.1 r.2 with he | ⟨fut, -, he⟩
      · rw [he]
        exact .quiet rfl rfl rfl
      · rw [he]
        exact .taken rfl rfl rfl
  | runAction i =>
    cases hi : c.actions[i]? with
    | none => simp [Client.step, hi] at hs
    | some a =>
      simp only [Client.step, hi, Option.some.injEq] at hs
      obtain rfl := hs
      exact .ran (List.mem_of_getElem? hi) rfl rfl rfl
  | fail f message =>
    obtain rfl := Option.some.inj hs
    exact .quiet rfl rfl rfl
  | onComplete f cb =>
    obtain rfl := Option.some.inj hs
    exact .quiet rfl rfl rfl

/-- A client has nothing but what it is handed. -/
theorem holds_step {P : Int64 → Resp → Prop} {c d : Client.State Resp} {m : Client.Move Resp}
    (hs : Client.step c m = some d) (h : Holds P c)
    (htake : ∀ seq resp, m = .take (some (seq, resp)) → P seq resp) : Holds P d := by
  cases client_effect hs with
  | sent _ _ hactions hdone => exact ⟨hactions ▸ h.1, hdone ▸ h.2⟩
  | taken _ hactions hdone =>
    refine ⟨fun a ha => ?_, hdone ▸ h.2⟩
    rw [hactions] at ha
    rcases List.mem_append.mp ha with ha | ha
    · exact h.1 a ha
    · rw [List.mem_singleton.mp ha]
      exact htake _ _ rfl
  | ran hm _ hactions hdone =>
    refine ⟨fun b hb => ?_, fun b hb => ?_⟩
    · rw [hactions] at hb
      exact h.1 b (List.mem_of_mem_eraseIdx hb)
    · rw [hdone] at hb
      rcases List.mem_append.mp hb with hb | hb
      · exact h.2 b hb
      · rw [List.mem_singleton.mp hb]
        exact h.1 _ hm
  | quiet _ hactions hdone => exact ⟨hactions ▸ h.1, hdone ▸ h.2⟩

theorem sent_subset {c d : Client.State Resp} {m : Client.Move Resp}
    (hs : Client.step c m = some d) : c.sent ⊆ d.sent := by
  cases client_effect hs with
  | sent _ hsent =>
    rw [hsent]
    exact List.subset_append_left _ _
  | taken hsent => exact hsent ▸ List.Subset.refl _
  | ran _ hsent => exact hsent ▸ List.Subset.refl _
  | quiet hsent => exact hsent ▸ List.Subset.refl _

/-- A send returns a number that was not sent before. -/
theorem send_fresh {c d : Client.State Resp} {seq : Int64}
    (hs : Client.step c (.send seq) = some d) : seq ∉ c.sent ∧ seq ∈ d.sent := by
  simp only [Client.step, Option.ite_none_left_eq_some, Option.some.injEq] at hs
  obtain ⟨hseq, rfl⟩ := hs
  exact ⟨hseq, List.mem_append_right _ List.mem_cons_self⟩

/-! ## The invariant -/

structure Inv (s : Sys Req Resp) : Prop where
  clients : ∀ g, Client.Inv (s.clients g)
  sent : ∀ p ∈ s.requests, p.1.sequence ∈ (s.clients p.1.guid).sent
  distinct : (s.requests.map Prod.fst).Nodup
  /-- What the servers hold are requests that were sent, each with its header. -/
  actions : ∀ a ∈ s.actions, ∃ h : Header, a.guid = h.guid.bytes ∧ a.sequence = h.sequence ∧
    (h, a.req) ∈ s.requests
  responses : ∀ p ∈ s.responses, Answered s p.1 p.2
  held : ∀ g, Holds (fun seq resp => Answered s ⟨g, seq⟩ resp) (s.clients g)

theorem start_inv (servers : Nat → Bool) : Inv (start servers : Sys Req Resp) where
  clients _ := Client.fresh_inv
  sent _ hp := by cases hp
  distinct := List.nodup_nil
  actions _ ha := by cases ha
  responses _ hp := by cases hp
  held _ := by simp [Holds, start, Client.fresh]

/-- A move of a client that is handed nothing but responses to its own requests. -/
theorem Inv.setClient {s : Sys Req Resp} (h : Inv s) {g : Guid} {m : Client.Move Resp}
    {d : Client.State Resp} (hs : Client.step (s.clients g) m = some d)
    (htake : ∀ seq resp, m = .take (some (seq, resp)) → Answered s ⟨g, seq⟩ resp) :
    Inv (s.setClient g d) := by
  have hother : ∀ g', g' ≠ g → (s.setClient g d).clients g' = s.clients g' := fun g' hg' =>
    update_of_ne hg' _ _
  have hself : (s.setClient g d).clients g = d := update_self _ _ _
  refine ⟨fun g' => ?_, fun p hp => ?_, h.distinct, h.actions, h.responses, fun g' => ?_⟩
  · by_cases hg : g' = g
    · rw [hg, hself]
      exact Client.step_inv _ m d (h.clients g) hs
    · rw [hother g' hg]
      exact h.clients g'
  · have hsent := h.sent p hp
    by_cases hg : p.1.guid = g
    · rw [hg, hself]
      rw [hg] at hsent
      exact sent_subset hs hsent
    · rw [hother _ hg]
      exact hsent
  · by_cases hg : g' = g
    · rw [hg, hself]
      exact holds_step hs (h.held g) htake
    · rw [hother g' hg]
      exact h.held g'

/-- A request more, under a header that was not in use. -/
theorem Inv.addRequest {s : Sys Req Resp} (h : Inv s) {hd : Header} (req : Req)
    (hnew : hd ∉ s.requests.map Prod.fst) (hsent : hd.sequence ∈ (s.clients hd.guid).sent) :
    Inv { s with requests := s.requests ++ [(hd, req)] } := by
  have hsub : s.requests ⊆ s.requests ++ [(hd, req)] := List.subset_append_left _ _
  have hmono : ∀ {h' : Header} {resp : Resp}, Answered s h' resp →
      Answered { s with requests := s.requests ++ [(hd, req)] } h' resp := fun ha =>
    ha.mono hsub (List.Subset.refl _)
  refine ⟨h.clients, fun p hp => ?_, ?_, fun a ha => ?_, fun p hp => hmono (h.responses p hp),
    fun g => ⟨fun a ha => hmono ((h.held g).1 a ha), fun a ha => hmono ((h.held g).2 a ha)⟩⟩
  · rcases List.mem_append.mp hp with hp | hp
    · exact h.sent p hp
    · rw [List.mem_singleton.mp hp]
      exact hsent
  · rw [List.map_append, List.map_singleton]
    refine List.nodup_append.mpr ⟨h.distinct, List.nodup_singleton _, ?_⟩
    rintro a ha b hb rfl
    obtain rfl : a = hd := List.mem_singleton.mp hb
    exact hnew ha
  · obtain ⟨h', hg, hseq, hm⟩ := h.actions a ha
    exact ⟨h', hg, hseq, hsub hm⟩

/-- A handler that ran on a request that was sent, whether or not its response gets out. -/
theorem Inv.respond {s : Sys Req Resp} (h : Inv s) {a : Action Req} (resp : Resp)
    (ha : ∃ hd : Header, a.guid = hd.guid.bytes ∧ a.sequence = hd.sequence ∧
      (hd, a.req) ∈ s.requests) : Inv (respond s a resp) := by
  obtain ⟨hd, hguid, hseq, hm⟩ := ha
  have hrecorded : Inv { s with handled := s.handled ++ [(a, resp)] } := by
    have hmono : ∀ {h' : Header} {r : Resp}, Answered s h' r →
        Answered { s with handled := s.handled ++ [(a, resp)] } h' r := fun hans =>
      hans.mono (List.Subset.refl _) (List.subset_append_left _ _)
    exact ⟨h.clients, h.sent, h.distinct, h.actions, fun p hp => hmono (h.responses p hp),
      fun g => ⟨fun b hb => hmono ((h.held g).1 b hb), fun b hb => hmono ((h.held g).2 b hb)⟩⟩
  unfold RemoteCalls.respond
  dsimp only
  rw [hguid, hseq]
  cases hsend : serviceSendResponse (s.servers a.server) hd.guid.bytes hd.sequence with
  | error e => exact hrecorded
  | ok h' =>
    obtain rfl := serviceSendResponse_header hsend
    refine { hrecorded with responses := fun p hp => ?_ }
    rcases List.mem_append.mp hp with hp | hp
    · exact hrecorded.responses p hp
    · rw [List.mem_singleton.mp hp]
      exact ⟨a, List.mem_append_right _ List.mem_cons_self, hguid, hseq, hm⟩

theorem step_inv (s : Sys Req Resp) (m : Move Req Resp) (t : Sys Req Resp) (h : Inv s)
    (hs : step s m = some t) : Inv t := by
  cases m with
  | send g seq req =>
    obtain ⟨c, hc, rfl⟩ := Option.map_eq_some_iff.mp hs
    obtain ⟨hfresh, hsent⟩ := send_fresh hc
    have hclient := h.setClient hc fun _ _ he => by cases he
    refine hclient.addRequest req (fun hm => ?_) ?_
    · obtain ⟨p, hp, hhd⟩ := List.mem_map.mp hm
      have hold := h.sent p hp
      rw [hhd] at hold
      exact hfresh hold
    · rw [Sys.setClient]
      simpa using hsent
  | client g m =>
    simp only [step, Option.ite_none_right_eq_some] at hs
    obtain ⟨hinner, hs⟩ := hs
    obtain ⟨c, hc, rfl⟩ := Option.map_eq_some_iff.mp hs
    refine h.setClient hc fun seq resp he => ?_
    rw [he] at hinner
    cases hinner
  | take g i =>
    simp only [step] at hs
    split at hs
    · next hd resp hi =>
      simp only [Option.ite_none_right_eq_some] at hs
      obtain ⟨rfl, hs⟩ := hs
      obtain ⟨c, hc, rfl⟩ := Option.map_eq_some_iff.mp hs
      refine h.setClient hc fun seq resp' he => ?_
      obtain ⟨rfl, rfl⟩ : hd.sequence = seq ∧ resp = resp' := by simpa using he
      exact h.responses _ (List.mem_of_getElem? hi)
    · cases hs
  | serve server i =>
    simp only [step] at hs
    split at hs
    · next hd req hi =>
      split at hs
      · obtain rfl := Option.some.inj hs
        exact h
      · next guid seq req' htake =>
        obtain rfl := Option.some.inj hs
        obtain ⟨-, heq⟩ := serviceTakeRequest_ok_iff.mp htake
        obtain ⟨rfl, rfl, rfl⟩ : guid = hd.guid.bytes ∧ seq = hd.sequence ∧ req' = req := by
          simpa using heq
        refine { h with actions := fun a ha => ?_ }
        rcases List.mem_append.mp ha with ha | ha
        · exact h.actions a ha
        · rw [List.mem_singleton.mp ha]
          exact ⟨hd, rfl, rfl, List.mem_of_getElem? hi⟩
    · cases hs
  | answer k resp =>
    simp only [step] at hs
    split at hs
    · next a ha =>
      have herase : Inv { s with actions := s.actions.eraseIdx k } :=
        { h with actions := fun b hb => h.actions b (List.mem_of_mem_eraseIdx hb) }
      cases resp with
      | none =>
        obtain rfl := Option.some.inj hs
        exact herase
      | some resp =>
        obtain rfl := Option.some.inj hs
        exact herase.respond resp (h.actions a (List.mem_of_getElem? ha))
    · cases hs
  | destroy server =>
    obtain rfl := Option.some.inj hs
    exact { h with }

/-- In every run, whatever is lost, repeated or overtaken, a call's future gets at most one
response, and one that a handler returned when given the request of that very call. -/
theorem responses_answer_their_call {servers : Nat → Bool} {es : List (Move Req Resp)}
    {s : Sys Req Resp} (h : run step (start servers) es = some s) :
    (s.requests.map Prod.fst).Nodup ∧ ∀ g,
      (∀ f, ((s.clients g).completions.map Prod.fst).count f ≤ 1) ∧
      ∀ f resp, ((s.clients g).futures f).value = some (.ok resp) →
        ∃ seq, (s.clients g).numberOf f = some seq ∧ Answered s ⟨g, seq⟩ resp := by
  have hinv := run_invariant step_inv (start_inv servers) h
  refine ⟨hinv.distinct, fun g => ?_⟩
  have hown := Client.ownResponses_of_inv (hinv.clients g)
  refine ⟨hown.once, fun f resp hv => ?_⟩
  obtain ⟨seq, hnumber, hm⟩ := hown.value f resp hv
  exact ⟨seq, hnumber, (hinv.held g).2 _ hm⟩

/-- A writer whose name is sixteen times the same byte. -/
def guidOf (b : UInt8) : Guid := ⟨⟨(List.replicate 16 b).toArray⟩, by simp [ByteArray.size]⟩

/-- Two clients use the same number; the answers come in the other order, and one comes twice. -/
def crossedRun : List (Move String String) :=
  [.send (guidOf 1) 7 "a", .send (guidOf 2) 7 "b", .client (guidOf 1) (.register 7),
    .client (guidOf 2) (.register 7), .serve 0 1, .serve 0 0, .answer 0 (some "B"),
    .answer 0 (some "A"), .take (guidOf 2) 0, .take (guidOf 1) 1, .take (guidOf 2) 0,
    .client (guidOf 1) (.runAction 0), .client (guidOf 2) (.runAction 0)]

theorem responses_answer_their_call_crossed :
    ∃ s, run step (start fun _ => true) crossedRun = some s ∧
      (s.clients (guidOf 1)).completions = [(0, 7, "A")] ∧
      (s.clients (guidOf 2)).completions = [(0, 7, "B")] ∧
      ∀ f, ((s.clients (guidOf 2)).completions.map Prod.fst).count f ≤ 1 := by
  have hrun : ∃ s, run step (start fun _ => true) crossedRun = some s ∧
      (s.clients (guidOf 1)).completions = [(0, 7, "A")] ∧
      (s.clients (guidOf 2)).completions = [(0, 7, "B")] := ⟨_, rfl, rfl, rfl⟩
  obtain ⟨s, hs, h₁, h₂⟩ := hrun
  exact ⟨s, hs, h₁, h₂, ((responses_answer_their_call hs).2 (guidOf 2)).1⟩

end RemoteCalls
