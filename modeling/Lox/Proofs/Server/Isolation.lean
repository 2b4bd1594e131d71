import Lox.Proofs.Machine.Sessions
import Lox.Proofs.Machine.Stack
import Lox.Server.Connection
/-!
# Connections do not disturb each other

A hub serves many connections and takes their frames in any order. Each connection sees only its
own frames, and answers its sources like a session that has run nothing but the sources before
them; main statement: `Hub.connections_are_sessions`. The buffers that a client uses again and the
failures that its reporter remembers do not show in a later reply.
-/

namespace Lox

namespace Session

variable {fuel : Nat} {source : Bytes} {session session' : Session}

/-- What a source leaves behind does not depend on earlier failures. -/
theorem run_state_congr (h : session.state = session'.state) :
    (session.run fuel source).2.state = (session'.run fuel source).2.state := by
  unfold run
  cases analyse source with
  | error problems => exact h
  | ok program => simp only [conclude, h]

theorem reset_congr (h : session.state = session'.state) : session.reset = session'.reset := by
  simp only [reset, h]

/-- A source that ends does not need more steps. -/
theorem run_more (h : (session.run fuel source).1.outcome.ended = true) (more : Nat) :
    session.run (fuel + more) source = session.run fuel source := by
  cases ha : analyse source with
  | error problems => simp only [run, ha]
  | ok program =>
    have hhalted := (run_halted ha h).1
    have hrun : (session.machine program).run (fuel + more) = (session.machine program).run fuel :=
      by rw [Machine.run_add, Machine.run_of_halted hhalted]
    simp only [run_eq_runOn, runOn, ha, hrun]

/-- The session after it has run sources one after another. -/
def after (fuel : Nat) (sources : List Bytes) (session : Session) : Session :=
  sources.foldl (fun session source => (session.run fuel source).2) session

theorem after_concat (sources : List Bytes) : session.after fuel (sources ++ [source]) =
    ((session.after fuel sources).run fuel source).2 := by
  simp [after]

/-- All sources end, each in the session that those before it have left. -/
def EndsAll (fuel : Nat) : List Bytes → Session → Prop
  | [], _ => True
  | source :: rest, session => (session.run fuel source).1.outcome.ended = true ∧
      EndsAll fuel rest (session.run fuel source).2

theorem after_more : ∀ {sources : List Bytes} {session : Session},
    session.EndsAll fuel sources → ∀ more,
      session.after (fuel + more) sources = session.after fuel sources
  | [], _, _, _ => rfl
  | source :: rest, session, h, more => by
    have hrest := after_more h.2 more
    rw [← run_more h.1 more] at hrest
    simp only [after, List.foldl_cons] at hrest ⊢
    rw [hrest, run_more h.1 more]

/-- The source that stands behind others ends as well. -/
theorem EndsAll.at : ∀ {sources : List Bytes} {session : Session} {later : List Bytes},
    session.EndsAll fuel (sources ++ source :: later) → session.EndsAll fuel sources ∧
      ((session.after fuel sources).run fuel source).1.outcome.ended = true
  | [], _, _, h => ⟨trivial, h.1⟩
  | _ :: _, _, _, h => ⟨⟨h.1, (EndsAll.at h.2).1⟩, (EndsAll.at h.2).2⟩

theorem outcome_reset : (session.reset.run fuel source).1.outcome =
    (session.run fuel source).1.outcome := by
  unfold run
  cases analyse source <;> rfl

end Session

namespace Frame

def tooLong (frame : Frame) : Bool := maxSize < frame.size

def source? : Frame → Option Bytes
  | text source => some source
  | binary _ => none

/-- The sources that are run: those before the first frame that is too long. -/
def sources (frames : List Frame) : List Bytes :=
  (frames.takeWhile (!·.tooLong)).filterMap source?

theorem sources_split {earlier later : List Frame} {source : Bytes}
    (h : earlier.any tooLong = false) (hs : (text source).tooLong = false) :
    sources (earlier ++ text source :: later) =
      earlier.filterMap source? ++ source :: sources later := by
  have hall : ∀ frame ∈ earlier, (!frame.tooLong) = true := by simpa using h
  rw [sources, List.takeWhile_append_of_pos hall, List.takeWhile_cons_of_pos (by simp [hs])]
  simp [source?, sources]

end Frame

/-! ## One connection -/

namespace Connection

/-- What a frame should be answered after earlier ones. A source gets the output and the
diagnostics of running it, with earlier failures forgotten, in a session that has run the earlier
sources and nothing else. -/
def replyAfter (fuel : Nat) (session : Session) (earlier : List Frame) (frame : Frame) : Reply :=
  if earlier.any Frame.tooLong then .closed
  else if frame.tooLong then .closing
  else match frame with
    | .binary _ => .nothing
    | .text source =>
      let report := ((session.after fuel (earlier.filterMap Frame.source?)).reset.run fuel source).1
      .ran report.outputText report.errorText

/-- The answers to frames that come one after another. -/
def replies (fuel : Nat) (session : Session) (frames : List Frame) : List Reply :=
  frames.mapIdx fun i frame => replyAfter fuel session (frames.take i) frame

variable {fuel : Nat} {session : Session} {earlier : List Frame} {c : Connection}

/-- The connection has received the earlier frames: a frame that was too long has closed it, and
otherwise its variables are those of a session that has run the sources. -/
inductive Received (fuel : Nat) (session : Session) (earlier : List Frame) : Connection → Prop
  | closed : earlier.any Frame.tooLong = true → Received fuel session earlier none
  | serving {client : Client} : earlier.any Frame.tooLong = false →
    client.session.state = (session.after fuel (earlier.filterMap Frame.source?)).state →
    Received fuel session earlier (some client)

theorem opened_received (fuel : Nat) (state : State) :
    Received fuel ⟨.clear, state⟩ [] (opened state) := .serving rfl rfl

/-- One frame is answered as it should be. -/
theorem Received.receive (h : Received fuel session earlier c) (frame : Frame) :
    (c.receive fuel frame).1 = replyAfter fuel session earlier frame ∧
      Received fuel session (earlier ++ [frame]) (c.receive fuel frame).2 := by
  cases h with
  | closed hlong =>
    refine ⟨?_, .closed (by simp [hlong])⟩
    unfold replyAfter
    rw [if_pos hlong]
    rfl
  | @serving client hshort hstate =>
    unfold replyAfter
    rw [if_neg (by simp [hshort])]
    by_cases hlong : frame.tooLong = true
    · have hsize : Frame.maxSize < frame.size := by simpa [Frame.tooLong] using hlong
      simp only [if_pos hlong, Connection.receive, if_pos hsize, true_and]
      exact .closed (by simp [hlong])
    · have hsize : ¬ Frame.maxSize < frame.size := by simpa [Frame.tooLong] using hlong
      have hstill : (earlier ++ [frame]).any Frame.tooLong = false := by simp [hshort, hlong]
      simp only [if_neg hlong, Connection.receive, if_neg hsize]
      cases frame with
      | binary data =>
        exact ⟨rfl, .serving hstill (by simpa [List.filterMap_cons, Frame.source?] using hstate)⟩
      | text source =>
        simp only [Client.run, List.nil_append]
        rw [Session.reset_congr hstate]
        refine ⟨rfl, .serving hstill ?_⟩
        simp only [List.filterMap_append, List.filterMap_cons, Frame.source?, List.filterMap_nil,
          Session.after_concat]
        exact Session.run_state_congr rfl

/-- All frames are answered as they should be. -/
theorem Received.receiveAll (h : Received fuel session earlier c) (frames : List Frame) :
    (c.receiveAll fuel frames).1 =
        frames.mapIdx (fun i frame => replyAfter fuel session (earlier ++ frames.take i) frame) ∧
      Received fuel session (earlier ++ frames) (c.receiveAll fuel frames).2 := by
  induction frames generalizing earlier c with
  | nil => exact ⟨rfl, by simpa [Connection.receiveAll] using h⟩
  | cons frame rest ih =>
    obtain ⟨hreply, hnext⟩ := h.receive frame
    obtain ⟨hreplies, hlast⟩ := ih hnext
    refine ⟨?_, by simpa [Connection.receiveAll] using hlast⟩
    simp [Connection.receiveAll, hreply, hreplies, List.mapIdx_cons]

theorem receiveAll_opened (state : State) (frames : List Frame) :
    ((opened state).receiveAll fuel frames).1 = replies fuel ⟨.clear, state⟩ frames ∧
      ((opened state).receiveAll fuel frames).2.isNone = frames.any Frame.tooLong := by
  obtain ⟨hreplies, hlast⟩ := (opened_received fuel state).receiveAll frames
  refine ⟨hreplies, ?_⟩
  generalize ((opened state).receiveAll fuel frames).2 = c at hlast
  cases hlast with
  | closed h => simpa using h.symm
  | serving h _ => simpa using h.symm

/-- As long as all sources end, it does not matter how many steps they may take. -/
theorem replies_more (frames : List Frame) (h : session.EndsAll fuel (Frame.sources frames))
    (more : Nat) : replies (fuel + more) session frames = replies fuel session frames := by
  rw [replies, replies, List.mapIdx_eq_mapIdx_iff]
  intro i hi
  unfold replyAfter
  split
  · rfl
  · rename_i hshort
    split
    · rfl
    · rename_i hlong
      generalize hframe : frames[i] = frame at hlong
      cases frame with
      | binary data => rfl
      | text source =>
        have hframes : frames = frames.take i ++ .text source :: frames.drop (i + 1) := by
          rw [← hframe, List.getElem_cons_drop, List.take_append_drop]
        rw [hframes, Frame.sources_split (by simpa using hshort) (by simpa using hlong)] at h
        obtain ⟨hearlier, hsource⟩ := h.at
        rw [← Session.outcome_reset] at hsource
        simp only [Session.after_more hearlier more, Session.run_more hsource more]

end Connection

/-! ## All connections -/

namespace Hub

/-- The frames of one connection. -/
def framesOf (n : Nat) (frames : List (Nat × Frame)) : List Frame :=
  (frames.filter (·.1 == n)).map (·.2)

/-- Of the replies to frames, those to one connection. -/
def repliesTo (n : Nat) (frames : List (Nat × Frame)) (replies : List Reply) : List Reply :=
  ((frames.zip replies).filter (·.1.1 == n)).map (·.2)

variable {fuel : Nat} {hub : Hub} {n : Nat} {c : Connection}

/-- A frame changes its own connection and no other. -/
theorem getElem?_deliver (fuel : Nat) (h : hub[n]? = some c) (number : Nat) (frame : Frame) :
    (hub.deliver fuel number frame).2[n]? =
      some (if number = n then (c.receive fuel frame).2 else c) := by
  obtain ⟨hn, rfl⟩ := List.getElem?_eq_some_iff.1 h
  simp only [deliver, List.getElem?_set]
  split
  · rename_i heq
    subst heq
    simp [hn]
  · simp [hn]

/-- A connection receives its own frames, in their order, and nothing else. -/
theorem deliverAll_at (h : hub[n]? = some c) (frames : List (Nat × Frame)) :
    repliesTo n frames (hub.deliverAll fuel frames).1 = (c.receiveAll fuel (framesOf n frames)).1 ∧
      (hub.deliverAll fuel frames).2[n]? = some (c.receiveAll fuel (framesOf n frames)).2 := by
  induction frames generalizing hub c with
  | nil => exact ⟨rfl, h⟩
  | cons next rest ih =>
    obtain ⟨number, frame⟩ := next
    have hnext := getElem?_deliver fuel h number frame
    obtain ⟨hreplies, hlast⟩ := ih hnext
    by_cases hn : number = n
    · subst hn
      simp_all [deliverAll, repliesTo, framesOf, Connection.receiveAll, deliver]
    · simp_all [deliverAll, repliesTo, framesOf]

/-- **Connections are isolated, and each is a session of its own.** Whatever frames the
connections send and in whatever order, the replies to one of them are those that it gets when
the others send nothing. They are the output and the diagnostics of its sources in a session that
has run only its own earlier sources; how many steps a source may take does not matter where its
sources end. A connection is closed by a frame of its own that is too long, and by nothing else. -/
theorem connections_are_sessions (fuel : Nat) (states : List State) (frames : List (Nat × Frame))
    (n : Fin states.length) :
    let hub : Hub := states.map Connection.opened
    let own := frames.filter (·.1 == n.val)
    let session : Session := ⟨.clear, states[n]⟩
    repliesTo n frames (hub.deliverAll fuel frames).1 =
        repliesTo n own (hub.deliverAll fuel own).1 ∧
      repliesTo n frames (hub.deliverAll fuel frames).1 =
        Connection.replies fuel session (framesOf n frames) ∧
      (session.EndsAll fuel (Frame.sources (framesOf n frames)) → ∀ more,
        repliesTo n frames (hub.deliverAll (fuel + more) frames).1 =
          repliesTo n frames (hub.deliverAll fuel frames).1) ∧
      (hub.deliverAll fuel frames).2[n.val]?.any Option.isNone =
        (framesOf n frames).any Frame.tooLong := by
  intro hub own session
  have hopen : hub[n.val]? = some (.opened states[n]) := by simp [hub]
  have hown : framesOf n own = framesOf n frames := by simp [framesOf, own, List.filter_filter]
  have hreplies : ∀ fuel, repliesTo n frames (hub.deliverAll fuel frames).1 =
      Connection.replies fuel session (framesOf n frames) := fun fuel =>
    (deliverAll_at hopen frames).1.trans (Connection.receiveAll_opened _ _).1
  refine ⟨?_, hreplies fuel, fun hends more => ?_, ?_⟩
  · rw [(deliverAll_at hopen frames).1, (deliverAll_at hopen own).1, hown]
  · rw [hreplies, hreplies, Connection.replies_more _ hends]
  · rw [(deliverAll_at hopen frames).2]
    exact (Connection.receiveAll_opened _ _).2

/-- Two connections: the second asks for a variable of the first, and the first goes on after a
source that fails. -/
def chatter : List (Nat × Frame) :=
  [(0, .text (utf8 "var a = \"x\"; print b;")), (1, .text (utf8 "print a;")), (0, .binary [0]),
    (0, .text (utf8 "print a + \"y\";"))]

theorem connections_are_sessions_chatter :
    let hub : Hub := [State.initial, State.initial].map Connection.opened
    repliesTo 0 chatter (hub.deliverAll 100 chatter).1 =
        [.ran [] (utf8 "Undefined variable 'b'.\n[line 1]\n"), .nothing, .ran (utf8 "xy\n") []] ∧
      ∀ more, repliesTo 0 chatter (hub.deliverAll (100 + more) chatter).1 =
        repliesTo 0 chatter (hub.deliverAll 100 chatter).1 := by
  intro hub
  obtain ⟨-, hreplies, hmore, -⟩ :=
    connections_are_sessions 100 [State.initial, State.initial] chatter 0
  refine ⟨hreplies.trans (by decide +kernel), hmore ⟨?_, ?_, trivial⟩⟩
  · decide +kernel
  · decide +kernel

end Hub

end Lox
