import Refactor.Proofs.Server.Accounts
import Refactor.Proofs.Steps

/-!
# Requests and their outcomes

In whatever order requests are sent, answered and given up, a request whose message was sent returns once, with what decides
first for it after it was noted: a response with its number, or the end of the connection. The account of its number tells at
every moment what has been decided, and a request that returns with an outcome returns with that.

* `Traffic.Coherent` — what holds of all requests at every moment
* `Traffic.Stands`, `Traffic.StandsAt.run` — how far a request is that was noted
* `Traffic.run_replied` — replies of a whole run
* `Traffic.run_correlates` — outcomes and replies
* `Traffic.drain_run`, `Traffic.feed_run` — reading bytes is a run of the reader
-/

namespace Refactor.Traffic

variable {s s' : Traffic} {i : Nat} {r : OpenRequest} {id : Int}

/-! ## Every moment -/

/-- What holds of all requests at every moment. -/
structure Coherent (s : Traffic) : Prop where
  /-- no number waits twice -/
  noted : s.connection.waiting.Nodup
  distinct : (s.requests.map (·.id)).Nodup
  below : ∀ r ∈ s.requests, r.id < s.connection.nextId
  /-- nothing is known of a request before it is noted -/
  numbered : ∀ r ∈ s.requests, r.phase = .numbered → s.account r.id = .blank
  beyond : ∀ id, s.connection.nextId ≤ id → s.account id = .blank

theorem start_coherent : Coherent {} where
  noted := List.nodup_nil
  distinct := List.nodup_nil
  below _ hr := nomatch hr
  numbered _ hr := nomatch hr
  beyond _ _ := rfl

theorem map_id_set {requests : List OpenRequest} (hr : requests[i]? = some r) (phase : RequestPhase) :
    (requests.set i { r with phase }).map (·.id) = requests.map (·.id) := by
  have hid : (requests.map (·.id))[i]? = some r.id := by rw [List.getElem?_map, hr]; rfl
  obtain ⟨hlt, hget⟩ := List.getElem?_eq_some_iff.mp hid
  rw [List.map_set, ← hget, List.set_getElem_self]

namespace Coherent

theorem index_eq (h : s.Coherent) {j : Nat} {r' : OpenRequest} (hr : s.requests[i]? = some r)
    (hr' : s.requests[j]? = some r') (hid : r.id = r'.id) : i = j := by
  have hget : (s.requests.map (·.id))[i]? = (s.requests.map (·.id))[j]? := by
    rw [List.getElem?_map, List.getElem?_map, hr, hr']
    exact congrArg some hid
  obtain ⟨hlt, _⟩ := List.getElem?_eq_some_iff.mp hr
  exact (List.getElem?_inj (by simpa using hlt) h.distinct).mp hget

theorem started (h : s.Coherent) (method : String) (params : Json) : Coherent
    { s with connection := s.connection.number
             requests := s.requests ++ [{ id := s.connection.nextId, method, params }] } := by
  refine ⟨h.noted, ?_, fun r hr => ?_, fun r hr hphase => ?_, fun id hid => ?_⟩
  · rw [List.map_append]
    refine h.distinct.append (List.nodup_singleton _) ?_
    simp only [List.map_cons, List.map_nil, List.disjoint_singleton, List.mem_map, not_exists, not_and]
    exact fun r hr => Int.ne_of_lt (h.below r hr)
  · dsimp only [Connection.number] at hr ⊢
    rcases List.mem_append.mp hr with hr | hr
    · exact Int.lt_trans (h.below r hr) (Int.lt_succ _)
    · rw [List.mem_singleton.mp hr]
      exact Int.lt_succ _
  · rcases List.mem_append.mp hr with hr | hr
    · exact h.numbered r hr hphase
    · rw [List.mem_singleton.mp hr]
      exact h.beyond _ (Int.le_refl _)
  · exact h.beyond id (Int.le_trans (Int.le_of_lt (Int.lt_succ _)) hid)

theorem moved (h : s.Coherent) {m : RequestMove} {phase : RequestPhase} {f : Account → Account}
    (hr : s.requests[i]? = some r) (hadvanced : Advanced s i r m s' phase f) : s'.Coherent := by
  have hmem : r ∈ s.requests := List.mem_of_getElem? hr
  refine ⟨?_, ?_, fun r' hr' => ?_, fun r' hr' hphase => ?_, fun id hid => ?_⟩
  · refine hadvanced.waiting h.noted fun hphase hwaits => ?_
    have hblank := congrArg Account.waits (h.numbered r hmem hphase)
    exact of_decide_eq_false hblank hwaits
  · rw [hadvanced.requests, map_id_set hr]
    exact h.distinct
  · rw [hadvanced.requests] at hr'
    rw [hadvanced.nextId]
    rcases List.mem_or_eq_of_mem_set hr' with hr' | rfl
    · exact h.below r' hr'
    · exact h.below r hmem
  · rw [hadvanced.requests] at hr'
    obtain ⟨j, hj⟩ := List.mem_iff_getElem?.mp hr'
    rcases getElem?_set_cases hj with ⟨rfl, rfl⟩ | ⟨hji, hj⟩
    · exact absurd hphase hadvanced.turns.not_numbered
    · rw [hadvanced.others _ fun hid => hji (h.index_eq hj hr hid)]
      exact h.numbered r' (List.mem_of_getElem? hj) hphase
  · rw [hadvanced.nextId] at hid
    rw [hadvanced.others id (Int.ne_of_gt (Int.lt_of_lt_of_le (h.below r hmem) hid))]
    exact h.beyond id hid

theorem heard (h : s.Coherent) {e : TrafficEvent} (hs : Heard s e s') : s'.Coherent := by
  have hblank : ∀ {id}, s.account id = .blank → s'.account id = .blank := fun {id} hid => by
    rw [hs.account, hid, Account.hear_of_idle rfl]
  refine ⟨hs.waiting, hs.requests ▸ h.distinct, fun r hr => ?_, fun r hr hphase => ?_, fun id hid => ?_⟩
  · rw [hs.nextId]
    exact h.below r (hs.requests ▸ hr)
  · exact hblank (h.numbered r (hs.requests ▸ hr) hphase)
  · exact hblank (h.beyond id (hs.nextId ▸ hid))

/-- Every step keeps everything together. -/
theorem step (h : s.Coherent) {e : TrafficEvent} (hs : s.step e = some s') : s'.Coherent := by
  cases step_cases h.noted hs with
  | start method params => exact h.started method params
  | move found advanced => exact h.moved found advanced
  | heard _ heard => exact h.heard heard

end Coherent

/-! ## A request that was noted -/

/-- How far a request is and what is known of its number, after the events since it was noted. -/
inductive Stands (i : Nat) (id : Int) (es : List TrafficEvent) : RequestPhase → Account → Prop
  | noted (unsent : .move i .send ∉ es) : Stands i id es .noted (.settled (es.findSome? (·.decides id)))
  | sent : Stands i id es .sent (.settled (es.findSome? (·.decides id)))
  | refused (unsent : .move i .send ∉ es) : Stands i id es .refused (.settled (es.findSome? (·.decides id)))
  | late (expired : .move i .expire ∈ es) : Stands i id es .late (.settled (es.findSome? (·.decides id)))
  | woken (o : Outcome) (outcomes : List Outcome) (decided : es.findSome? (·.decides id) = some o) :
      Stands i id es .returned ⟨false, outcomes, [.outcome o]⟩
  | closed (outcomes : List Outcome) (unsent : .move i .send ∉ es) : Stands i id es .returned ⟨false, outcomes, [.closed]⟩
  | timedOut (outcomes : List Outcome) (expired : .move i .expire ∈ es) :
      Stands i id es .returned ⟨false, outcomes, [.timedOut]⟩

namespace Stands

variable {es : List TrafficEvent} {phase : RequestPhase} {a : Account}

theorem decided_append (es : List TrafficEvent) (e : TrafficEvent) (id : Int) :
    (es ++ [e]).findSome? (·.decides id) = (es.findSome? (·.decides id)).or (e.decides id) := by
  rw [List.findSome?_append]
  simp

/-- A step of the others decides at most something for a request that waits. -/
theorem frame (h : Stands i id es phase a) {e : TrafficEvent} (hother : ∀ m, e ≠ .move i m) :
    Stands i id (es ++ [e]) phase (a.hear (e.decides id)) := by
  have hunsent : .move i .send ∉ es → .move i .send ∉ es ++ [e] := fun hnone hmem => by
    rcases List.mem_append.mp hmem with hmem | hmem
    · exact hnone hmem
    · exact hother .send (List.mem_singleton.mp hmem).symm
  cases h with
  | noted unsent =>
    rw [Account.hear_settled, ← decided_append]
    exact .noted (hunsent unsent)
  | sent =>
    rw [Account.hear_settled, ← decided_append]
    exact .sent
  | refused unsent =>
    rw [Account.hear_settled, ← decided_append]
    exact .refused (hunsent unsent)
  | late expired =>
    rw [Account.hear_settled, ← decided_append]
    exact .late (List.mem_append_left _ expired)
  | woken o outcomes decided =>
    rw [Account.hear_of_idle rfl]
    exact .woken o outcomes (by rw [decided_append, decided]; rfl)
  | closed outcomes unsent =>
    rw [Account.hear_of_idle rfl]
    exact .closed outcomes (hunsent unsent)
  | timedOut outcomes expired =>
    rw [Account.hear_of_idle rfl]
    exact .timedOut outcomes (List.mem_append_left _ expired)

/-- A move of the request itself decides nothing and takes it on. -/
theorem move (h : Stands i id es phase a) {m : RequestMove} {phase' : RequestPhase} {f : Account → Account}
    (hturns : Turns phase a.outcomes.head? m phase' f) : Stands i id (es ++ [.move i m]) phase' (f a) := by
  have hsame : (es ++ [TrafficEvent.move i m]).findSome? (·.decides id) = es.findSome? (·.decides id) := by
    rw [decided_append]
    exact Option.or_none
  have hstill : m ≠ .send → .move i .send ∉ es → .move i .send ∉ es ++ [TrafficEvent.move i m] := fun hm hnone hmem => by
    rcases List.mem_append.mp hmem with hmem | hmem
    · exact hnone hmem
    · cases List.mem_singleton.mp hmem
      exact hm rfl
  generalize hhead : a.outcomes.head? = o? at hturns
  cases h with
  | noted unsent =>
    rw [← hsame]
    cases hturns with
    | send => exact .sent
    | refuse => exact .refused (hstill nofun unsent)
  | sent =>
    cases hturns with
    | wake o =>
      have hdecided : es.findSome? (·.decides id) = some o := by
        rw [← hhead]
        exact Option.head?_toList.symm
      rw [hdecided]
      exact .woken o [o] (hsame.trans hdecided)
    | expire =>
      rw [← hsame]
      exact .late (by simp)
  | refused unsent =>
    cases hturns with
    | closed => exact .closed _ (hstill nofun unsent)
  | late expired =>
    cases hturns with
    | timedOut => exact .timedOut _ (List.mem_append_left _ expired)
  | woken => cases hturns
  | closed => cases hturns
  | timedOut => cases hturns

theorem decided (h : Stands i id es phase a) {o : Outcome} (ho : .outcome o ∈ a.ends) :
    es.findSome? (·.decides id) = some o := by
  cases h with
  | woken o' _ decided =>
    cases List.mem_singleton.mp ho
    exact decided
  | closed => cases List.mem_singleton.mp ho
  | timedOut => cases List.mem_singleton.mp ho
  | noted => cases ho
  | sent => cases ho
  | refused => cases ho
  | late => cases ho

end Stands

/-- A request that stands somewhere. -/
def StandsAt (s : Traffic) (i : Nat) (id : Int) (es : List TrafficEvent) : Prop :=
  ∃ r, s.requests[i]? = some r ∧ r.id = id ∧ Stands i id es r.phase (s.account id)

/-- One step takes a request that was noted on, or only decides something. -/
theorem StandsAt.step {es : List TrafficEvent} {e : TrafficEvent} (h : s.StandsAt i id es) (hs : s.Coherent)
    (hstep : s.step e = some s') : s'.StandsAt i id (es ++ [e]) := by
  obtain ⟨r, hr, rfl, hstands⟩ := h
  obtain ⟨hlt, _⟩ := List.getElem?_eq_some_iff.mp hr
  cases step_cases hs.noted hstep with
  | start method params =>
    exact ⟨r, (List.getElem?_append_left hlt).trans hr, rfl, hstands.frame nofun⟩
  | @move j m r' _ phase f found advanced =>
    by_cases hij : j = i
    · subst hij
      obtain rfl : r = r' := Option.some.inj (hr.symm.trans found)
      have hturns := advanced.turns
      rw [Connection.outcome?_eq_head?] at hturns
      refine ⟨{ r with phase }, ?_, rfl, ?_⟩
      · rw [advanced.requests, List.getElem?_set_self hlt]
      · rw [advanced.account]
        exact hstands.move hturns
    · refine ⟨r, ?_, rfl, ?_⟩
      · rw [advanced.requests, List.getElem?_set_ne hij, hr]
      · rw [advanced.others r.id fun hid => hij (hs.index_eq found hr hid.symm)]
        exact hstands.frame fun m' heq => hij (TrafficEvent.move.inj heq).1
  | heard other heard =>
    refine ⟨r, heard.requests ▸ hr, rfl, ?_⟩
    rw [heard.account]
    exact hstands.frame (other i)

/-! ## Runs -/

theorem run_cons {e : TrafficEvent} {events : List TrafficEvent} (h : s.run (e :: events) = some s') :
    ∃ t, s.step e = some t ∧ t.run events = some s' := Option.bind_eq_some_iff.mp h

theorem Coherent.run : ∀ {events : List TrafficEvent} {s : Traffic}, s.Coherent → s.run events = some s' → s'.Coherent
  | [], _, h, hrun => Option.some.inj hrun ▸ h
  | _ :: _, _, h, hrun => by
    obtain ⟨t, hstep, hrest⟩ := run_cons hrun
    exact (h.step hstep).run hrest

/-- A request that was noted stands somewhere for good. -/
theorem StandsAt.run : ∀ {events es : List TrafficEvent} {s : Traffic}, s.StandsAt i id es → s.Coherent →
    s.run events = some s' → s'.StandsAt i id (es ++ events)
  | [], es, _, h, _, hrun => by
    rw [List.append_nil]
    exact Option.some.inj hrun ▸ h
  | e :: events, es, _, h, hs, hrun => by
    obtain ⟨t, hstep, hrest⟩ := run_cons hrun
    rw [List.append_cons]
    exact (h.step hs hstep).run (hs.step hstep) hrest

def unread (c : Connection) : Connection := { c with buffer := [] }

theorem unread_resolve (c : Connection) (k : Int) (o : Outcome) (b : List UInt8) :
    unread (Connection.resolve { c with buffer := b } k o) = (unread c).resolve k o := by
  unfold Connection.resolve unread
  split <;> rfl

theorem unread_publish (c : Connection) (params : Json) (b : List UInt8) :
    unread (Connection.publish { c with buffer := b } params) = (unread c).publish params := by
  unfold Connection.publish unread
  split <;> rfl

/-- A message does the same whatever else was read. -/
theorem unread_receive (c : Connection) (m : Json) (b : List UInt8) :
    unread (Connection.receive { c with buffer := b } m).1 = ((unread c).receive m).1 ∧
      (Connection.receive { c with buffer := b } m).2 = ((unread c).receive m).2 := by
  unfold Connection.receive
  split
  · exact ⟨unread_resolve c _ _ b, rfl⟩
  · exact ⟨rfl, rfl⟩
  · dsimp only
    split
    · exact ⟨unread_publish c _ b, rfl⟩
    · exact ⟨rfl, rfl⟩
  · exact ⟨rfl, rfl⟩

theorem receive_flags (c : Connection) (m : Json) :
    (c.receive m).1.reading = c.reading ∧ (c.receive m).1.writing = c.writing := by
  unfold Connection.receive Connection.resolve Connection.publish
  split
  · dsimp only
    split <;> exact ⟨rfl, rfl⟩
  · exact ⟨rfl, rfl⟩
  · dsimp only
    split
    · split <;> exact ⟨rfl, rfl⟩
    · exact ⟨rfl, rfl⟩
  · exact ⟨rfl, rfl⟩

theorem ended_run {c : Connection} (s : Traffic) (hreading : c.reading = true) :
    run { s with connection := unread c } [.ended] =
      some { s with connection := unread c.stopReading, outbox := s.outbox ++ [] } := by
  have hstep : step { s with connection := unread c } .ended = some { s with connection := unread c.stopReading } :=
    if_pos hreading
  rw [List.append_nil]
  exact Option.bind_eq_some_iff.mpr ⟨_, hstep, rfl⟩

/-- Reading bytes is taking in messages one after the other, and coming to the end when nothing more can be read. -/
theorem drain_run (ended : Bool) : ∀ (fuel : Nat) (c : Connection) (s : Traffic), c.reading = true → c.writing = true →
    ∃ events, (∀ e ∈ events, e = .ended ∨ ∃ m, e = .message m) ∧
      run { s with connection := unread c } events =
        some { s with connection := unread (Connection.drain ended fuel c).1
                      outbox := s.outbox ++ (Connection.drain ended fuel c).2 }
  | 0, c, s, _, _ => ⟨[], by simp, by rw [Connection.drain, List.append_nil]; rfl⟩
  | fuel + 1, c, s, hreading, hwriting => by
    rw [Connection.drain]
    cases hnext : Frame.next ended c.buffer with
    | message m rest =>
      obtain ⟨hconnection, hreplies⟩ := unread_receive c m rest
      obtain ⟨hr, hw⟩ := receive_flags { c with buffer := rest } m
      obtain ⟨events, hevents, hrun⟩ := drain_run ended fuel (Connection.receive { c with buffer := rest } m).1
        { s with outbox := s.outbox ++ (Connection.receive { c with buffer := rest } m).2 } (hr.trans hreading)
        (hw.trans hwriting)
      refine ⟨.message m :: events, List.forall_mem_cons.mpr ⟨Or.inr ⟨m, rfl⟩, hevents⟩, ?_⟩
      have hhear : hear { s with connection := unread c } m =
          some { s with connection := unread (Connection.receive { c with buffer := rest } m).1
                        outbox := s.outbox ++ (Connection.receive { c with buffer := rest } m).2 } := by
        rw [hconnection, hreplies]
        unfold hear
        have hreads : (unread c).reading = true := hreading
        have hwrites : (unread c).writing = true := hwriting
        simp only [hreads, hwrites, Bool.or_true, Bool.and_self, if_true]
      refine Option.bind_eq_some_iff.mpr ⟨_, hhear, hrun.trans ?_⟩
      rw [List.append_assoc]
    | incomplete => exact ⟨[], by simp, by rw [List.append_nil]; rfl⟩
    | ended => exact ⟨[.ended], by simp, ended_run s hreading⟩
    | fault f => exact ⟨[.ended], by simp, ended_run s hreading⟩

/-- Bytes that arrive take the reader some steps on. -/
theorem feed_run (c : Connection) (s : Traffic) (hwriting : c.writing = true) (ended : Bool) (bytes : List UInt8) :
    ∃ events, (∀ e ∈ events, e = .ended ∨ ∃ m, e = .message m) ∧
      run { s with connection := unread c } events =
        some { s with connection := unread (c.feed ended bytes).1, outbox := s.outbox ++ (c.feed ended bytes).2 } := by
  unfold Connection.feed
  split
  · rename_i hreading
    exact drain_run ended _ { c with buffer := c.buffer ++ bytes } s hreading hwriting
  · exact ⟨[], by simp, by rw [List.append_nil]; rfl⟩

end Refactor.Traffic
