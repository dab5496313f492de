import Mathlib.Data.List.Nodup
import Refactor.Proofs.Json.Fields
import Refactor.Server.Traffic

/-!
# Accounts of numbers

What a connection and its requests know of one number is its account. A step of a request with another number leaves it
alone. Messages, the end of the stream and a failure of the writer decide something for a number or nothing, and a decision
changes the account only when a request waits under the number.

* `Connection.answer_spec` — replies carry the number of what they answer
* `Connection.Received` — what a message does to a connection
* `Account`, `Traffic.account` — what is known of a number
* `Traffic.Turns`, `Traffic.advance_cases` — what a step of a request does
* `Traffic.Replied` — replies between two moments
* `Traffic.Heard`, `Traffic.hear_heard` — what a step of the reader or the writer does
* `Traffic.Stepped`, `Traffic.step_cases` — what a step can do
-/

namespace Refactor

/-! ## Replies -/

def Message.isReply (m : Json) : Bool := (m.get? "method").isNone

theorem Message.response_spec (id result : Json) :
    (Message.response id result).get? "id" = some id ∧ isReply (Message.response id result) = true := by
  simp [isReply, Message.response, Json.get?_ofFields]

theorem Message.methodNotFound_spec (id : Json) :
    (Message.methodNotFound id).get? "id" = some id ∧ isReply (Message.methodNotFound id) = true := by
  simp [isReply, Message.methodNotFound, Json.get?_ofFields]

theorem Message.isReply_request (id : Int) (method : String) (params : Json) :
    isReply (Message.request id method params) = false := by
  simp [isReply, Message.request, Json.get?_ofFields]

namespace Connection

/-- The answer to a request of the server is a reply with the number of the request, whatever is asked. -/
theorem answer_spec (id : Json) (method : String) (params : Json) :
    (answer id method params).get? "id" = some id ∧ Message.isReply (answer id method params) = true := by
  unfold answer
  split
  · exact Message.response_spec ..
  · exact Message.response_spec ..
  · exact Message.response_spec ..
  · exact Message.response_spec ..
  · exact Message.response_spec ..
  · exact Message.methodNotFound_spec id

/-! ## Numbers on a connection -/

def outcomesOf (c : Connection) (id : Int) : List Outcome := (c.outcomes.filter (·.1 == id)).map (·.2)

variable {c : Connection} {id k : Int} {o : Outcome}

theorem outcome?_eq_head? (c : Connection) (id : Int) : c.outcome? id = (c.outcomesOf id).head? := by
  unfold outcome? outcomesOf
  induction c.outcomes with
  | nil => rfl
  | cons first rest ih =>
    obtain ⟨k, o⟩ := first
    rw [List.lookup_cons, List.filter_cons, ih]
    by_cases hk : k = id
    · simp [hk]
    · have hk' : (id == k) = false := by simpa using Ne.symm hk
      simp [hk, hk']

theorem mem_waiting_resolve : id ∈ (c.resolve k o).waiting ↔ id ∈ c.waiting ∧ id ≠ k := by
  unfold resolve
  split
  · simp
  · rename_i hnone
    refine ⟨fun h => ⟨h, ?_⟩, fun h => h.1⟩
    rintro rfl
    exact hnone (List.contains_iff_mem.mpr h)

theorem outcomesOf_resolve : (c.resolve k o).outcomesOf id =
    c.outcomesOf id ++ if k = id ∧ id ∈ c.waiting then [o] else [] := by
  unfold resolve outcomesOf
  split
  · rename_i hwaits
    have hmem : k ∈ c.waiting := List.contains_iff_mem.mp hwaits
    rw [List.filter_append, List.map_append]
    by_cases hk : k = id
    · subst hk
      simp [hmem]
    · simp [hk]
  · rename_i hnone
    rw [if_neg, List.append_nil]
    rintro ⟨rfl, hmem⟩
    exact hnone (List.contains_iff_mem.mpr hmem)

theorem resolve_nextId : (c.resolve k o).nextId = c.nextId := by
  unfold resolve
  split <;> rfl

theorem resolve_nodup (h : c.waiting.Nodup) : (c.resolve k o).waiting.Nodup := by
  unfold resolve
  split
  · exact h.filter _
  · exact h

/-- A request that waits gets one outcome when all are ended, since no number waits twice. -/
theorem outcomesOf_failAll (h : c.waiting.Nodup) (reason : String) : (c.failAll reason).outcomesOf id =
    c.outcomesOf id ++ if id ∈ c.waiting then [.disconnected reason] else [] := by
  unfold failAll outcomesOf
  rw [List.filter_append, List.map_append, List.filter_map, List.map_map]
  refine congrArg _ ?_
  have hone : c.waiting.filter (· == id) = if id ∈ c.waiting then [id] else [] := by
    rw [List.filter_beq, h.count]
    split <;> rfl
  show (c.waiting.filter (· == id)).map _ = _
  rw [hone]
  split <;> rfl

/-- What a message does to a connection, and the replies to it. -/
inductive Received (c : Connection) (m : Json) : Connection → List Json → Prop
  | response (k : Int) (o : Outcome) (kind : Incoming.classify m = some (.response k o)) : Received c m (c.resolve k o) []
  | request (id : Json) (method : String) (params : Json) (kind : Incoming.classify m = some (.request id method params)) :
      Received c m c [answer id method params]
  | notification (method : String) (params : Json) (c' : Connection)
      (kind : Incoming.classify m = some (.notification method params)) (waiting : c'.waiting = c.waiting)
      (outcomes : c'.outcomes = c.outcomes) (nextId : c'.nextId = c.nextId) : Received c m c' []
  | unknown (kind : Incoming.classify m = none) : Received c m c []

theorem receive_received (c : Connection) (m : Json) : Received c m (c.receive m).1 (c.receive m).2 := by
  unfold receive
  cases hkind : Incoming.classify m with
  | none => exact .unknown hkind
  | some kind =>
    cases kind with
    | response k o => exact .response k o hkind
    | request id method params => exact .request id method params hkind
    | notification method params =>
      dsimp only
      split
      · unfold publish
        split
        · exact .notification method params _ hkind rfl rfl rfl
        · exact .notification method params _ hkind rfl rfl rfl
      · exact .notification method params _ hkind rfl rfl rfl

end Connection

/-! ## Accounts -/

/-- What is known of a number: whether a request waits under it, its outcomes, and how it returned. -/
structure Account where
  waits : Bool
  outcomes : List Outcome
  ends : List RequestEnd

namespace Account

def blank : Account := ⟨false, [], []⟩

def settled (v : Option Outcome) : Account := ⟨v.isNone, v.toList, []⟩

/-- What is decided reaches the request that waits. -/
def hear (a : Account) : Option Outcome → Account
  | some o => if a.waits then { a with waits := false, outcomes := a.outcomes ++ [o] } else a
  | none => a

theorem hear_of_idle {a : Account} (h : a.waits = false) (d : Option Outcome) : a.hear d = a := by
  cases d with
  | none => rfl
  | some o => exact if_neg (by simp [h])

theorem hear_settled (v d : Option Outcome) : (settled v).hear d = settled (v.or d) := by
  cases v with
  | none => cases d <;> rfl
  | some o => exact hear_of_idle rfl d

end Account

/-- What an event decides for a request that waits under a number. -/
def TrafficEvent.decides (id : Int) : TrafficEvent → Option Outcome
  | .message m =>
    match Incoming.classify m with
    | some (.response k o) => if k = id then some o else none
    | _ => none
  | .ended => some (.disconnected "LSP server exited")
  | .failed reason => some (.disconnected reason)
  | _ => none

/-- The number of the server's request that an event is. -/
def TrafficEvent.asks? : TrafficEvent → Option Json
  | .message m =>
    match Incoming.classify m with
    | some (.request id _ _) => some id
    | _ => none
  | _ => none

namespace Traffic

variable {s s' : Traffic} {i : Nat} {r : OpenRequest} {id : Int}

def account (s : Traffic) (id : Int) : Account := ⟨decide (id ∈ s.connection.waiting), s.connection.outcomesOf id, s.endsOf id⟩

theorem endsOf_finish (s : Traffic) (i : Nat) (r : OpenRequest) (e : RequestEnd) (id : Int) :
    (s.finish i r e).endsOf id = s.endsOf id ++ if id = r.id then [e] else [] := by
  unfold endsOf finish put
  rw [List.filter_append, List.map_append]
  by_cases h : id = r.id
  · simp [h]
  · simp [h, Ne.symm h]

/-! ## Steps of a request -/

/-- What a move does to a request and its account, when the request has an outcome or none. -/
inductive Turns : RequestPhase → Option Outcome → RequestMove → RequestPhase → (Account → Account) → Prop
  | note {o} : Turns .numbered o .note .noted fun a => { a with waits := true }
  | send {o} : Turns .noted o .send .sent fun a => a
  | refuse {o} : Turns .noted o .refuse .refused fun a => a
  | wake (o) : Turns .sent (some o) .wake .returned fun a => { a with ends := a.ends ++ [.outcome o] }
  | expire : Turns .sent none .expire .late fun a => a
  | closed {o} : Turns .refused o .leave .returned fun a => { a with waits := false, ends := a.ends ++ [.closed] }
  | timedOut {o} : Turns .late o .leave .returned fun a => { a with waits := false, ends := a.ends ++ [.timedOut] }

theorem Turns.not_numbered {before after : RequestPhase} {o : Option Outcome} {m : RequestMove} {f : Account → Account}
    (h : Turns before o m after f) : after ≠ .numbered := by
  cases h <;> nofun

/-- What a step of a request leaves: the request in another phase, and the accounts of the other numbers. -/
structure Advanced (s : Traffic) (i : Nat) (r : OpenRequest) (m : RequestMove) (s' : Traffic) (phase : RequestPhase)
    (f : Account → Account) : Prop where
  turns : Turns r.phase (s.connection.outcome? r.id) m phase f
  requests : s'.requests = s.requests.set i { r with phase }
  nextId : s'.connection.nextId = s.connection.nextId
  account : s'.account r.id = f (s.account r.id)
  others : ∀ id, id ≠ r.id → s'.account id = s.account id
  waiting : s.connection.waiting.Nodup → (r.phase = .numbered → r.id ∉ s.connection.waiting) →
    s'.connection.waiting.Nodup
  replies : s'.outbox.filter Message.isReply = s.outbox.filter Message.isReply

theorem leave_advanced {e : RequestEnd} (h : Turns r.phase (s.connection.outcome? r.id) .leave
      .returned fun a => { a with waits := false, ends := a.ends ++ [e] }) :
    Advanced s i r .leave { s.finish i r e with connection := s.connection.forget r.id } .returned
      fun a => { a with waits := false, ends := a.ends ++ [e] } where
  turns := h
  requests := rfl
  nextId := rfl
  account := by
    refine congrArg₂ (fun b es => Account.mk b _ es) ?_ ?_
    · simp [Connection.forget]
    · exact (endsOf_finish s i r e r.id).trans (by rw [if_pos rfl]; rfl)
  others id hid := by
    refine congrArg₂ (fun b es => Account.mk b _ es) ?_ ?_
    · simp [Connection.forget, hid]
    · exact (endsOf_finish s i r e id).trans (by rw [if_neg hid, List.append_nil])
  waiting hnodup _ := hnodup.filter _
  replies := rfl

theorem advance_cases {m : RequestMove} (h : s.advance i r m = some s') : ∃ phase f, Advanced s i r m s' phase f := by
  obtain ⟨rid, method, params, phase⟩ := r
  cases m with
  | note =>
    cases phase with
    | numbered =>
      cases h
      refine ⟨.noted, _, .note, rfl, rfl, ?_, fun id hid => ?_, fun hnodup hnew => ?_, rfl⟩
      · simp [account, Connection.note, Connection.outcomesOf, endsOf, put]
      · simp [account, Connection.note, Connection.outcomesOf, endsOf, put, hid]
      · exact List.Nodup.append hnodup (List.nodup_singleton _) (by simpa using hnew rfl)
    | _ => cases h
  | send =>
    cases phase with
    | noted =>
      simp only [advance] at h
      split at h
      · cases h
        refine ⟨.sent, _, .send, rfl, rfl, rfl, fun _ _ => rfl, fun hnodup _ => hnodup, ?_⟩
        rw [List.filter_append, List.filter_singleton, Message.isReply_request]
        exact List.append_nil _
      · cases h
    | _ => cases h
  | refuse =>
    cases phase with
    | noted =>
      simp only [advance] at h
      split at h
      · cases h
      · cases h
        exact ⟨.refused, _, .refuse, rfl, rfl, rfl, fun _ _ => rfl, fun hnodup _ => hnodup, rfl⟩
    | _ => cases h
  | wake =>
    cases phase with
    | sent =>
      cases hfound : s.connection.outcome? rid with
      | none =>
        simp only [advance, hfound] at h
        cases h
      | some o =>
        simp only [advance, hfound] at h
        cases h
        refine ⟨.returned, fun a => { a with ends := a.ends ++ [.outcome o] }, ?_, rfl, rfl, ?_, fun id hid => ?_,
          fun hnodup _ => hnodup, rfl⟩
        · rw [hfound]
          exact .wake o
        · exact congrArg (Account.mk _ _) ((endsOf_finish s i _ _ rid).trans (by rw [if_pos rfl]; rfl))
        · exact congrArg (Account.mk _ _) ((endsOf_finish s i _ _ id).trans (by rw [if_neg hid, List.append_nil]))
    | _ => cases h
  | expire =>
    cases phase with
    | sent =>
      cases hfound : s.connection.outcome? rid with
      | none =>
        simp only [advance, hfound] at h
        cases h
        refine ⟨.late, fun a => a, ?_, rfl, rfl, rfl, fun _ _ => rfl, fun hnodup _ => hnodup, rfl⟩
        rw [hfound]
        exact .expire
      | some o =>
        simp only [advance, hfound] at h
        cases h
    | _ => cases h
  | leave =>
    cases phase with
    | refused =>
      cases h
      exact ⟨_, _, leave_advanced .closed⟩
    | late =>
      cases h
      exact ⟨_, _, leave_advanced .timedOut⟩
    | _ => cases h

/-! ## Steps of the reader and the writer -/

/-- Between two moments one reply was handed over for each of some requests of the server, with its number. -/
def Replied (s s' : Traffic) (ids : List Json) : Prop := ∃ replies,
  s'.outbox.filter Message.isReply = s.outbox.filter Message.isReply ++ replies ∧
    List.Forall₂ (fun id reply => reply.get? "id" = some id) ids replies

theorem Replied.none (h : s'.outbox.filter Message.isReply = s.outbox.filter Message.isReply) : Replied s s' [] :=
  ⟨[], by rw [h, List.append_nil], .nil⟩

theorem Replied.trans {s'' : Traffic} {ids ids' : List Json} (h : Replied s s' ids) (h' : Replied s' s'' ids') :
    Replied s s'' (ids ++ ids') := by
  obtain ⟨replies, hreplies, hids⟩ := h
  obtain ⟨replies', hreplies', hids'⟩ := h'
  exact ⟨replies ++ replies', by rw [hreplies', hreplies, List.append_assoc], List.rel_append hids hids'⟩

/-- What a step of the reader or the writer leaves: the requests, the accounts with what is decided, and a reply when the
server asks. -/
structure Heard (s : Traffic) (e : TrafficEvent) (s' : Traffic) : Prop where
  requests : s'.requests = s.requests
  ends : s'.ends = s.ends
  nextId : s'.connection.nextId = s.connection.nextId
  account : ∀ id, s'.account id = (s.account id).hear (e.decides id)
  waiting : s'.connection.waiting.Nodup
  replied : Replied s s' e.asks?.toList

/-- Ending all requests decides for every one that waits. -/
theorem account_failAll (h : s.connection.waiting.Nodup) (reason : String)
    (hwaiting : s'.connection.waiting = []) (houtcomes : s'.connection.outcomes = (s.connection.failAll reason).outcomes)
    (hends : s'.ends = s.ends) (id : Int) : s'.account id = (s.account id).hear (some (.disconnected reason)) := by
  have houtcomes' : s'.connection.outcomesOf id = (s.connection.failAll reason).outcomesOf id := by
    unfold Connection.outcomesOf
    rw [houtcomes]
  unfold account endsOf Account.hear
  rw [hwaiting, hends, houtcomes', Connection.outcomesOf_failAll h]
  by_cases hid : id ∈ s.connection.waiting <;> simp [hid]

theorem hear_received {m : Json} (h : s.hear m = some s') : ∃ c replies, s.connection.Received m c replies ∧
    s' = { s with connection := c, outbox := s.outbox ++ replies } := by
  have hreceived := s.connection.receive_received m
  unfold hear at h
  split at h
  rename_i c replies hreceive
  rw [hreceive] at hreceived
  split at h
  · exact ⟨c, replies, hreceived, (Option.some.inj h).symm⟩
  · cases h

/-- A message decides for the request that waits under its number, when it is a response. -/
theorem hear_heard {m : Json} (hnodup : s.connection.waiting.Nodup) (h : s.hear m = some s') : Heard s (.message m) s' := by
  obtain ⟨c, replies, hreceived, rfl⟩ := hear_received h
  cases hreceived with
  | response k o kind =>
    refine ⟨rfl, rfl, Connection.resolve_nextId, fun id => ?_, Connection.resolve_nodup hnodup, ?_⟩
    · rw [TrafficEvent.decides, kind]
      unfold account
      dsimp only
      simp only [Connection.mem_waiting_resolve, Connection.outcomesOf_resolve]
      by_cases hk : k = id
      · subst hk
        by_cases hwaits : k ∈ s.connection.waiting <;> simp [hwaits, Account.hear, endsOf]
      · simp [hk, Ne.symm hk, Account.hear, endsOf]
    · rw [TrafficEvent.asks?, kind]
      exact .none (by rw [List.append_nil])
  | request id method params kind =>
    refine ⟨rfl, rfl, rfl, fun id => by rw [TrafficEvent.decides, kind]; rfl, hnodup, ?_⟩
    obtain ⟨hid, hreply⟩ := Connection.answer_spec id method params
    rw [TrafficEvent.asks?, kind]
    refine ⟨[Connection.answer id method params], ?_, .cons hid .nil⟩
    rw [List.filter_append, List.filter_singleton, hreply]
    rfl
  | notification method params c' kind waiting outcomes nextId =>
    refine ⟨rfl, rfl, nextId, fun id => ?_, waiting ▸ hnodup, ?_⟩
    · rw [TrafficEvent.decides, kind]
      unfold account Connection.outcomesOf
      rw [waiting, outcomes]
      rfl
    · rw [TrafficEvent.asks?, kind]
      exact .none (by rw [List.append_nil])
  | unknown kind =>
    refine ⟨rfl, rfl, rfl, fun id => by rw [TrafficEvent.decides, kind]; rfl, hnodup, ?_⟩
    rw [TrafficEvent.asks?, kind]
    exact .none (by rw [List.append_nil])

/-! ## All steps -/

/-- What a step can do: a request takes its number, a request moves, or the reader or the writer does something. -/
inductive Stepped (s : Traffic) : TrafficEvent → Traffic → Prop
  | start (method : String) (params : Json) : Stepped s (.start method params)
      { s with connection := s.connection.number
               requests := s.requests ++ [{ id := s.connection.nextId, method, params }] }
  | move {i m r s' phase f} (found : s.requests[i]? = some r) (advanced : Advanced s i r m s' phase f) :
      Stepped s (.move i m) s'
  | heard {e s'} (other : ∀ i m, e ≠ .move i m) (heard : Heard s e s') : Stepped s e s'

theorem step_cases {e : TrafficEvent} (hnodup : s.connection.waiting.Nodup) (h : s.step e = some s') : Stepped s e s' := by
  cases e with
  | start method params =>
    cases h
    exact .start method params
  | move i m =>
    obtain ⟨r, hr, hadvance⟩ := Option.bind_eq_some_iff.mp h
    obtain ⟨phase, f, hadvanced⟩ := advance_cases hadvance
    exact .move hr hadvanced
  | message m => exact .heard nofun (hear_heard hnodup h)
  | ended =>
    simp only [step] at h
    split at h
    · cases h
      exact .heard nofun ⟨rfl, rfl, rfl, account_failAll hnodup _ rfl rfl rfl, List.nodup_nil, .none rfl⟩
    · cases h
  | failed reason =>
    simp only [step] at h
    split at h
    · cases h
      exact .heard nofun ⟨rfl, rfl, rfl, account_failAll hnodup _ rfl rfl rfl, List.nodup_nil, .none rfl⟩
    · cases h
  | closed =>
    simp only [step] at h
    split at h
    · cases h
      exact .heard nofun ⟨rfl, rfl, rfl, fun _ => rfl, hnodup, .none rfl⟩
    · cases h

end Traffic

end Refactor
