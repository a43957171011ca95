import LlmCacheProxy.Foundation.Channel
import LlmCacheProxy.Foundation.Machine
import LlmCacheProxy.Replay

/-!
# The background task and the client

A response is relayed through a bounded channel. The background task polls the
stream and sends each item, waiting where the channel is full; the client takes
items at its own pace and may go away at any point. What this comes to, whatever
the order of the moves, is what `relay` says for some client, and each client of
`relay` is one of these orders.
-/

namespace LlmCacheProxy

open ServerConfig

/-! ### Moves -/

/-- Where the background task is. -/
inductive Task where
  | polling (rest : List Item)
  /-- `tx.send` of the item has not returned. -/
  | sending (item : Item) (rest : List Item)
  /-- The loop was left with this value of `stream_complete`. -/
  | ended (complete : Bool)

structure Streaming where
  task : Task
  chunksRaw : List (UInt64 × Bytes)
  responseBuf : Bytes
  channel : Channel Item
  /-- The client has read to the end of the body. -/
  atEnd : Bool

namespace Streaming

inductive Move where
  /-- `stream.next()` returns; `elapsed` is what the clock shows then. -/
  | poll (elapsed : UInt64)
  /-- `tx.send` finds room. -/
  | push
  /-- `tx.send` finds the receiver gone. -/
  | refused
  /-- The client takes an item. -/
  | take
  /-- The client finds the channel empty and the sender gone. -/
  | finish
  /-- The client goes away. -/
  | hangUp

def start (capacity : Nat) (positive : 0 < capacity) (items : List Item) : Streaming :=
  ⟨.polling items, [], [], .new capacity positive, false⟩

/-- The loop is left; the sender is dropped. -/
def leave (s : Streaming) (channel : Channel Item) (complete : Bool) : Streaming :=
  { s with task := .ended complete, channel := channel.closeSender }

/-- A chunk is kept where the response may be cached, and sent. -/
def chunk (s : Streaming) (doCache : Bool) (elapsed : UInt64) (bytes : Bytes)
    (rest : List Item) : Streaming :=
  { s with
    task := .sending (.ok bytes) rest
    chunksRaw := s.chunksRaw ++ if doCache then [(elapsed, bytes)] else []
    responseBuf := s.responseBuf ++ if doCache then bytes else [] }

def poll (doCache : Bool) (s : Streaming) (elapsed : UInt64) : Option Streaming :=
  match s.task with
  | .polling [] => some (s.leave s.channel true)
  | .polling (.ok bytes :: rest) => some (s.chunk doCache elapsed bytes rest)
  | .polling (.error e :: rest) => some { s with task := .sending (.error e) rest }
  | _ => none

/-- A send that returned `Ok`; behind an error the loop is left. -/
def pushed (s : Streaming) (item : Item) (rest : List Item) (channel : Channel Item) :
    Streaming :=
  match item with
  | .ok _ => { s with task := .polling rest, channel := channel }
  | .error _ => s.leave channel false

def step (doCache : Bool) (s : Streaming) : Move → Option Streaming
  | .poll elapsed => s.poll doCache elapsed
  | .push =>
      match s.task with
      | .sending item rest => (s.channel.push item).map (s.pushed item rest)
      | _ => none
  | .refused =>
      match s.task, s.channel.receiverGone with
      | .sending _ _, true => some (s.leave s.channel false)
      | _, _ => none
  | .take => s.channel.take.map fun channel => { s with channel := channel }
  | .finish =>
      if s.channel.queue = [] ∧ s.channel.senderGone = true ∧ s.channel.receiverGone = false ∧
          s.atEnd = false then
        some { s with atEnd := true }
      else none
  | .hangUp =>
      if s.channel.receiverGone = false ∧ s.atEnd = false then
        some { s with channel := s.channel.closeReceiver }
      else none

/-- What the task has collected, with the items that entered the channel. -/
def relayed (s : Streaming) (complete : Bool) : Relayed :=
  ⟨s.chunksRaw, s.responseBuf, s.channel.sent, complete⟩

/-- The task has ended and the client reads no more. -/
def Settled (s : Streaming) : Prop :=
  (∃ complete, s.task = .ended complete) ∧ (s.channel.receiverGone = true ∨ s.atEnd = true)

variable {doCache : Bool}

/-! ### What a move does -/

/-- The moves of the task change the channel by a push at most. -/
inductive Moved (doCache : Bool) (s : Streaming) : Streaming → Prop where
  | eof (h : s.task = .polling []) : Moved doCache s (s.leave s.channel true)
  | chunk (bytes : Bytes) (rest : List Item) (elapsed : UInt64)
      (h : s.task = .polling (.ok bytes :: rest)) :
      Moved doCache s (s.chunk doCache elapsed bytes rest)
  | failure (e : Text) (rest : List Item) (h : s.task = .polling (.error e :: rest)) :
      Moved doCache s { s with task := .sending (.error e) rest }
  | push (bytes : Bytes) (rest : List Item) (channel : Channel Item)
      (h : s.task = .sending (.ok bytes) rest) (hpush : s.channel.push (.ok bytes) = some channel) :
      Moved doCache s { s with task := .polling rest, channel := channel }
  | pushError (e : Text) (rest : List Item) (channel : Channel Item)
      (h : s.task = .sending (.error e) rest) (hpush : s.channel.push (.error e) = some channel) :
      Moved doCache s (s.leave channel false)
  | refused (item : Item) (rest : List Item) (h : s.task = .sending item rest)
      (hgone : s.channel.receiverGone = true) : Moved doCache s (s.leave s.channel false)
  | take (channel : Channel Item) (htake : s.channel.take = some channel) :
      Moved doCache s { s with channel := channel }
  | finish (hqueue : s.channel.queue = []) (hsender : s.channel.senderGone = true)
      (hopen : s.channel.receiverGone = false) (hreading : s.atEnd = false) :
      Moved doCache s { s with atEnd := true }
  | hangUp (hopen : s.channel.receiverGone = false) (hreading : s.atEnd = false) :
      Moved doCache s { s with channel := s.channel.closeReceiver }

theorem moved_of_step {s t : Streaming} {m : Move} (h : s.step doCache m = some t) :
    Moved doCache s t := by
  cases m with
  | poll elapsed =>
      simp only [step, poll] at h
      split at h
      · exact Option.some.inj h ▸ .eof ‹_›
      · exact Option.some.inj h ▸ .chunk _ _ _ ‹_›
      · exact Option.some.inj h ▸ .failure _ _ ‹_›
      · cases h
  | push =>
      simp only [step] at h
      split at h
      · rename_i item rest htask
        obtain ⟨channel, hpush, rfl⟩ := Option.map_eq_some_iff.mp h
        cases item with
        | ok bytes => exact .push bytes rest channel htask hpush
        | error e => exact .pushError e rest channel htask hpush
      · cases h
  | refused =>
      simp only [step] at h
      split at h
      · exact Option.some.inj h ▸ .refused _ _ ‹_› ‹_›
      · cases h
  | take =>
      obtain ⟨channel, htake, rfl⟩ := Option.map_eq_some_iff.mp h
      exact .take channel htake
  | finish =>
      simp only [step] at h
      split at h
      · rename_i hif
        exact Option.some.inj h ▸ .finish hif.1 hif.2.1 hif.2.2.1 hif.2.2.2
      · cases h
  | hangUp =>
      simp only [step] at h
      split at h
      · rename_i hif
        exact Option.some.inj h ▸ .hangUp hif.1 hif.2
      · cases h

/-! ### Outcomes -/

/-- What `relay` makes of the rest of the stream for a client, put behind what
the task has collected. -/
def outcome (doCache : Bool) (s : Streaming) (client : Client) : Relayed :=
  let joined (r : Relayed) : Relayed :=
    ⟨s.chunksRaw ++ r.chunksRaw, s.responseBuf ++ r.responseBuf, s.channel.sent ++ r.sent,
      r.complete⟩
  match s.task with
  | .polling rest => joined (relay doCache client s.channel.sent.length rest)
  | .sending (.ok bytes) rest =>
      if client.accepts s.channel.sent.length then
        let r := relay doCache client (s.channel.sent.length + 1) rest
        joined { r with sent := .ok bytes :: r.sent }
      else s.relayed false
  | .sending (.error e) _ =>
      joined ⟨[], [], if client.accepts s.channel.sent.length then [.error e] else [], false⟩
  | .ended complete => s.relayed complete

/-- Some client of `relay` brings the outcome about. -/
def Possible (doCache : Bool) (s : Streaming) (r : Relayed) : Prop :=
  ∃ client, s.outcome doCache client = r

theorem outcome_ended {s : Streaming} {complete : Bool} (h : s.task = .ended complete)
    (client : Client) : s.outcome doCache client = s.relayed complete := by
  simp only [outcome, h]

theorem outcome_start {capacity : Nat} (positive : 0 < capacity) (items : List Item)
    (client : Client) :
    (start capacity positive items).outcome doCache client = relay doCache client 0 items := by
  simp [outcome, start, Channel.new]

/-- From an item on, `relay` asks its client about later items only. -/
theorem relay_congr {client client' : Client} {i : Nat}
    (haccepts : ∀ j, i ≤ j → client.accepts j = client'.accepts j)
    (helapsed : ∀ j, i ≤ j → client.elapsed j = client'.elapsed j) (items : List Item) :
    relay doCache client i items = relay doCache client' i items := by
  induction items generalizing i with
  | nil => rfl
  | cons item rest ih =>
      have hrest := ih (i := i + 1) (fun j hj => haccepts j (by omega))
        fun j hj => helapsed j (by omega)
      cases item with
      | ok bytes => simp only [relay, haccepts i le_rfl, helapsed i le_rfl, hrest]
      | error e => simp only [relay, haccepts i le_rfl]

/-- The client, but for its answer about one item. -/
def answering (client : Client) (i : Nat) (answer : Bool) : Client :=
  { client with accepts := fun j => if j = i then answer else client.accepts j }

/-- The client, but for the clock at one item. -/
def timing (client : Client) (i : Nat) (elapsed : UInt64) : Client :=
  { client with elapsed := fun j => if j = i then elapsed else client.elapsed j }

theorem relay_answering (client : Client) (i : Nat) (answer : Bool) (items : List Item) :
    relay doCache (answering client i answer) (i + 1) items =
      relay doCache client (i + 1) items := by
  apply relay_congr
  · exact fun j hj => if_neg (by omega)
  · exact fun _ _ => rfl

theorem relay_timing (client : Client) (i : Nat) (elapsed : UInt64) (items : List Item) :
    relay doCache (timing client i elapsed) (i + 1) items = relay doCache client (i + 1) items := by
  apply relay_congr
  · exact fun _ _ => rfl
  · exact fun j hj => if_neg (by omega)

/-- A move decides one question of the client at most, so what is possible
behind it was possible before. -/
theorem Moved.possible {s t : Streaming} (h : Moved doCache s t) {r : Relayed}
    (hr : t.Possible doCache r) : s.Possible doCache r := by
  obtain ⟨client, rfl⟩ := hr
  cases h with
  | eof h =>
      refine ⟨client, ?_⟩
      simp [outcome, h, leave, relay, relayed]
  | chunk bytes rest elapsed h =>
      refine ⟨timing client s.channel.sent.length elapsed, ?_⟩
      simp only [outcome, Streaming.chunk, h, relay, relay_timing]
      by_cases ha : client.accepts s.channel.sent.length = true
      · simp [timing, ha, List.append_assoc]
      · simp [timing, ha, relayed]
  | failure e rest h => exact ⟨client, by simp only [outcome, h, relay]⟩
  | push bytes rest channel h hpush =>
      obtain ⟨-, -, hsent, -⟩ := Channel.push_spec hpush
      refine ⟨answering client s.channel.sent.length true, ?_⟩
      simp only [outcome, h, relay_answering, hsent, List.length_append, List.length_singleton]
      simp [answering, List.append_assoc]
  | pushError e rest channel h hpush =>
      obtain ⟨-, -, hsent, -⟩ := Channel.push_spec hpush
      refine ⟨answering client s.channel.sent.length true, ?_⟩
      simp [outcome, h, answering, leave, relayed, hsent]
  | refused item rest h hgone =>
      refine ⟨answering client s.channel.sent.length false, ?_⟩
      cases item with
      | ok bytes => simp [outcome, h, answering, leave, relayed]
      | error e => simp [outcome, h, answering, leave, relayed]
  | take channel htake =>
      obtain ⟨_, -, -, hsent, -⟩ := Channel.take_spec htake
      exact ⟨client, by simp only [outcome, relayed, hsent]⟩
  | finish => exact ⟨client, rfl⟩
  | hangUp => exact ⟨client, rfl⟩

/-! ### The invariant -/

/-- Chunks only, no error. -/
def Whole (items : List Item) : Prop := ∀ item ∈ items, ∃ bytes, item = .ok bytes

/-- What has entered the channel is the part of the stream behind which the task
is. It ends early where the client is gone, or behind the error it has sent. -/
def Place (items : List Item) (s : Streaming) : Prop :=
  match s.task with
  | .polling rest => items = s.channel.sent ++ rest ∧ Whole s.channel.sent
  | .sending item rest => items = s.channel.sent ++ item :: rest ∧ Whole s.channel.sent
  | .ended true => s.channel.sent = items ∧ Whole items
  | .ended false =>
      (s.channel.receiverGone = true ∧ s.channel.sent <+: items ∧ Whole s.channel.sent) ∨
        ∃ front e, s.channel.sent = front ++ [.error e] ∧ s.channel.sent <+: items ∧ Whole front

structure Sound (items : List Item) (s : Streaming) : Prop where
  place : Place items s
  /-- The sender is dropped when the loop is left. -/
  closed : s.channel.senderGone = true ↔ ∃ complete, s.task = .ended complete
  /-- Only a client that is still there comes to the end, and leaves nothing unread. -/
  atEnd : s.atEnd = true →
    s.channel.senderGone = true ∧ s.channel.receiverGone = false ∧ s.channel.queue = []

theorem Sound.start {capacity : Nat} (positive : 0 < capacity) (items : List Item) :
    Sound items (start capacity positive items) where
  place := ⟨rfl, fun _ h => absurd h List.not_mem_nil⟩
  closed := by simp [Streaming.start, Channel.new]
  atEnd := by simp [Streaming.start]

private theorem Sound.running {items : List Item} {s : Streaming} (hs : Sound items s)
    (h : ∀ complete, s.task ≠ .ended complete) :
    s.channel.senderGone = false ∧ s.atEnd = false := by
  have hopen : ¬ s.channel.senderGone = true := fun hgone => by
    obtain ⟨complete, hended⟩ := hs.closed.mp hgone
    exact h complete hended
  have hreading : ¬ s.atEnd = true := fun hend => hopen (hs.atEnd hend).1
  exact ⟨by simpa using hopen, by simpa using hreading⟩

/-- Leaving the loop keeps the invariant where the place is right. -/
private theorem Sound.leave {items : List Item} {s : Streaming} {channel : Channel Item}
    {complete : Bool} (hreading : s.atEnd = false)
    (hplace : Place items (s.leave channel complete)) : Sound items (s.leave channel complete) where
  place := hplace
  closed := ⟨fun _ => ⟨complete, rfl⟩, fun _ => rfl⟩
  atEnd := fun h => absurd (hreading.symm.trans h) Bool.false_ne_true

/-- A move that leaves the loop running keeps the invariant likewise. -/
private theorem Sound.on {items : List Item} {t : Streaming}
    (hrunning : ∀ complete, t.task ≠ .ended complete) (hopen : t.channel.senderGone = false)
    (hreading : t.atEnd = false) (hplace : Place items t) : Sound items t where
  place := hplace
  closed := by
    rw [hopen]
    exact ⟨fun h => absurd h Bool.false_ne_true, fun ⟨c, h⟩ => absurd h (hrunning c)⟩
  atEnd := fun h => absurd (hreading.symm.trans h) Bool.false_ne_true

theorem Whole.concat {items : List Item} (h : Whole items) (bytes : Bytes) :
    Whole (items ++ [.ok bytes]) := by
  intro item hitem
  rcases List.mem_append.mp hitem with hitem | hitem
  · exact h item hitem
  · exact ⟨bytes, List.mem_singleton.mp hitem⟩

/-- The place of the task does not depend on what the client has taken. -/
theorem Place.of_channel {items : List Item} {s : Streaming} (h : Place items s)
    {channel : Channel Item} (hsent : channel.sent = s.channel.sent)
    (hgone : s.channel.receiverGone = true → channel.receiverGone = true) :
    Place items { s with channel := channel } := by
  obtain ⟨task, chunksRaw, responseBuf, old, atEnd⟩ := s
  cases task with
  | polling rest => simpa only [Place, hsent] using h
  | sending item rest => simpa only [Place, hsent] using h
  | ended complete =>
      cases complete with
      | true => simpa only [Place, hsent] using h
      | false =>
          simp only [Place, hsent] at h ⊢
          rcases h with ⟨hold, hrest⟩ | h
          · exact .inl ⟨hgone hold, hrest⟩
          · exact .inr h

theorem Sound.moved {items : List Item} {s t : Streaming} (hs : Sound items s)
    (h : Moved doCache s t) : Sound items t := by
  have hplace := hs.place
  cases h with
  | eof h =>
      simp only [Place, h, List.append_nil] at hplace
      exact .leave (hs.running (by simp [h])).2 ⟨hplace.1.symm, hplace.1 ▸ hplace.2⟩
  | chunk bytes rest elapsed h =>
      simp only [Place, h] at hplace
      obtain ⟨hopen, hreading⟩ := hs.running (by simp [h])
      exact .on (by simp [Streaming.chunk]) hopen hreading hplace
  | failure e rest h =>
      simp only [Place, h] at hplace
      obtain ⟨hopen, hreading⟩ := hs.running (by simp [h])
      exact .on (by simp) hopen hreading hplace
  | push bytes rest channel h hpush =>
      simp only [Place, h] at hplace
      obtain ⟨hopen, hreading⟩ := hs.running (by simp [h])
      obtain ⟨-, -, hsent, -, -, hsender, -⟩ := Channel.push_spec hpush
      refine .on (by simp) (hsender.trans hopen) hreading ?_
      simp only [Place, hsent]
      exact ⟨by simp [hplace.1], hplace.2.concat bytes⟩
  | pushError e rest channel h hpush =>
      simp only [Place, h] at hplace
      obtain ⟨-, -, hsent, -⟩ := Channel.push_spec hpush
      refine .leave (hs.running (by simp [h])).2 (.inr ⟨s.channel.sent, e, hsent, ?_, hplace.2⟩)
      exact ⟨rest, by simp [Streaming.leave, hsent, hplace.1]⟩
  | refused item rest h hgone =>
      simp only [Place, h] at hplace
      refine .leave (hs.running (by simp [h])).2 (.inl ⟨hgone, ?_, hplace.2⟩)
      exact ⟨item :: rest, hplace.1.symm⟩
  | take channel htake =>
      obtain ⟨a, hqueue, -, hsent, -, hsender, hgone⟩ := Channel.take_spec htake
      refine ⟨hplace.of_channel hsent fun h => hgone.trans h, by rw [← hs.closed, ← hsender], ?_⟩
      intro hend
      have hnil := (hs.atEnd hend).2.2
      rw [hqueue] at hnil
      cases hnil
  | finish hqueue hsender hopen hreading =>
      exact ⟨hplace, hs.closed, fun _ => ⟨hsender, hopen, hqueue⟩⟩
  | hangUp hopen hreading =>
      refine ⟨hplace.of_channel rfl fun _ => rfl, hs.closed, ?_⟩
      exact fun h => absurd (hreading.symm.trans h) Bool.false_ne_true

theorem Sound.run {items : List Item} {capacity : Nat} {positive : 0 < capacity} {ms : List Move}
    {s : Streaming} (h : Machine.run (step doCache) (.start capacity positive items) ms = some s) :
    Sound items s :=
  Machine.run_invariant (fun _ _ _ hs hstep => hs.moved (moved_of_step hstep))
    (.start positive items) h

/-- What has entered the channel is a beginning of the stream. -/
theorem Sound.sent_prefix {items : List Item} {s : Streaming} (hs : Sound items s) :
    s.channel.sent <+: items := by
  have hplace := hs.place
  cases htask : s.task with
  | polling rest =>
      simp only [Place, htask] at hplace
      exact ⟨rest, hplace.1.symm⟩
  | sending item rest =>
      simp only [Place, htask] at hplace
      exact ⟨item :: rest, hplace.1.symm⟩
  | ended complete =>
      cases complete with
      | true =>
          simp only [Place, htask] at hplace
          exact ⟨[], by rw [List.append_nil, hplace.1]⟩
      | false =>
          simp only [Place, htask] at hplace
          rcases hplace with ⟨-, hpart, -⟩ | ⟨_, _, -, hpart, -⟩
          · exact hpart
          · exact hpart

/-- A client that has read to the end has the whole stream, or has been told of
its failure. -/
theorem Sound.read_to_end {items : List Item} {s : Streaming} (hs : Sound items s)
    (hend : s.atEnd = true) :
    (s.task = .ended true ∧ s.channel.received = items ∧ Whole items) ∨
      s.task = .ended false ∧ ∃ front e, s.channel.received = front ++ [.error e] ∧
        Whole front := by
  obtain ⟨hsender, hopen, hqueue⟩ := hs.atEnd hend
  obtain ⟨complete, htask⟩ := hs.closed.mp hsender
  have hreceived : s.channel.received = s.channel.sent := by
    rw [← s.channel.order hopen, hqueue, List.append_nil]
  have hplace := hs.place
  cases complete with
  | true =>
      simp only [Place, htask] at hplace
      exact .inl ⟨htask, hreceived.trans hplace.1, hplace.2⟩
  | false =>
      simp only [Place, htask] at hplace
      rcases hplace with ⟨hgone, -⟩ | ⟨front, e, hfront, -, hwhole⟩
      · cases hopen.symm.trans hgone
      · exact .inr ⟨htask, front, e, hreceived.trans hfront, hwhole⟩

/-! ### Runs end -/

def Task.movesLeft : Task → Nat
  | .polling rest => 3 * rest.length + 1
  | .sending _ rest => 3 * rest.length + 3
  | .ended _ => 0

/-- The last move of a client that is still reading. -/
def lastMove (receiverGone atEnd : Bool) : Nat := if receiverGone || atEnd then 0 else 1

/-- Two moves of the task and one of the client for each item of the stream, and
one move each at the end. -/
def movesLeft (s : Streaming) : Nat :=
  Task.movesLeft s.task + s.channel.queue.length + lastMove s.channel.receiverGone s.atEnd

theorem Moved.movesLeft_lt {s t : Streaming} (h : Moved doCache s t) :
    t.movesLeft < s.movesLeft := by
  cases h with
  | eof h =>
      simp only [movesLeft, h, Task.movesLeft, Streaming.leave, Channel.queue_closeSender,
        Channel.receiverGone_closeSender]
      omega
  | chunk bytes rest elapsed h =>
      simp only [movesLeft, Streaming.chunk, h, Task.movesLeft, List.length_cons]
      omega
  | failure e rest h =>
      simp only [movesLeft, h, Task.movesLeft, List.length_cons]
      omega
  | push bytes rest channel h hpush =>
      obtain ⟨-, hqueue, -, -, -, -, hgone⟩ := Channel.push_spec hpush
      simp only [movesLeft, h, Task.movesLeft, hqueue, hgone, List.length_append,
        List.length_singleton]
      omega
  | pushError e rest channel h hpush =>
      obtain ⟨-, hqueue, -, -, -, -, hgone⟩ := Channel.push_spec hpush
      simp only [movesLeft, h, Task.movesLeft, Streaming.leave, Channel.queue_closeSender,
        Channel.receiverGone_closeSender, hqueue, hgone, List.length_append,
        List.length_singleton]
      omega
  | refused item rest h hgone =>
      simp only [movesLeft, h, Task.movesLeft, Streaming.leave, Channel.queue_closeSender,
        Channel.receiverGone_closeSender]
      omega
  | take channel htake =>
      obtain ⟨a, hqueue, -, -, -, -, hgone⟩ := Channel.take_spec htake
      simp only [movesLeft, hqueue, hgone, List.length_cons]
      omega
  | finish hqueue hsender hopen hreading =>
      simp [movesLeft, lastMove, hopen, hreading]
  | hangUp hopen hreading =>
      simp only [movesLeft, lastMove, hopen, hreading, Channel.queue_closeReceiver,
        Channel.receiverGone_closeReceiver, List.length_nil]
      simp only [Bool.true_or, Bool.or_self, if_true, Bool.false_eq_true, if_false]
      omega

theorem step_movesLeft (s : Streaming) (m : Move) (t : Streaming)
    (h : s.step doCache m = some t) : t.movesLeft < s.movesLeft :=
  (moved_of_step h).movesLeft_lt

/-- Nobody waits for the other: no move is left only where the task has ended
and the client reads no more. -/
theorem Sound.stuck_iff {items : List Item} {s : Streaming} (hs : Sound items s) :
    Machine.Stuck (step doCache) s ↔ s.Settled := by
  constructor
  · intro hstuck
    cases htask : s.task with
    | polling rest =>
        have hpoll := hstuck (.poll 0)
        rcases rest with - | ⟨item, rest⟩
        · simp [step, poll, htask] at hpoll
        · cases item with
          | ok bytes => simp [step, poll, htask] at hpoll
          | error e => simp [step, poll, htask] at hpoll
    | sending item rest =>
        have hpush := hstuck .push
        have hrefused := hstuck .refused
        have htake := hstuck .take
        simp only [step, htask, Option.map_eq_none_iff] at hpush hrefused htake
        have hopen : s.channel.receiverGone = false := by
          cases hgone : s.channel.receiverGone with
          | false => rfl
          | true => simp [hgone] at hrefused
        have hfull : s.channel.queue ≠ [] := by
          intro hnil
          obtain ⟨channel, h⟩ := Channel.exists_push (c := s.channel)
            ⟨hopen, by simpa [hnil] using s.channel.positive⟩ item
          rw [hpush] at h
          cases h
        obtain ⟨channel, h⟩ := Channel.exists_take hfull
        rw [htake] at h
        cases h
    | ended complete =>
        refine ⟨⟨complete, htask⟩, ?_⟩
        by_contra hreading
        have hfinish := hstuck .finish
        have htake := hstuck .take
        simp only [not_or, Bool.not_eq_true] at hreading
        have hqueue : s.channel.queue = [] := by
          by_contra hqueue
          obtain ⟨channel, h⟩ := Channel.exists_take hqueue
          simp [step, h] at htake
        simp [step, hqueue, hs.closed.mpr ⟨complete, htask⟩, hreading] at hfinish
  · rintro ⟨⟨complete, htask⟩, hreads⟩ m
    have hqueue : s.channel.queue = [] := by
      rcases hreads with hgone | hend
      · exact (s.channel.drained hgone).1
      · exact (hs.atEnd hend).2.2
    cases m with
    | poll elapsed => simp only [step, poll, htask]
    | push => simp only [step, htask]
    | refused => simp only [step, htask]
    | take =>
        simp only [step, Option.map_eq_none_iff]
        by_contra h
        obtain ⟨channel, h⟩ := Option.ne_none_iff_exists'.mp h
        obtain ⟨a, ha, -⟩ := Channel.take_spec h
        rw [hqueue] at ha
        cases ha
    | finish =>
        rcases hreads with hgone | hend
        · simp [step, hgone]
        · simp [step, hend]
    | hangUp =>
        rcases hreads with hgone | hend
        · simp [step, hgone]
        · simp [step, hend]

/-! ### Every client of `relay` is some order of the moves -/

/-- How many items a client of `relay` receives. -/
def target (doCache : Bool) (items : List Item) (client : Client) : Nat :=
  (relay doCache client 0 items).sent.length - client.unread

/-- The order that a client of `relay` stands for: it takes items where the
channel is full, until it is about to refuse one or the task has ended; then it
takes what it still receives, and hangs up. -/
structure Following (doCache : Bool) (items : List Item) (client : Client) (s : Streaming) :
    Prop where
  outcome : s.outcome doCache client = relay doCache client 0 items
  sound : Sound items s
  reading : s.atEnd = false
  room : client.unread ≤ s.channel.capacity
  behind : s.channel.received.length ≤ target doCache items client
  gone : s.channel.receiverGone = true →
    s.channel.received.length = target doCache items client ∧
      ((∃ complete, s.task = .ended complete) ∨
        ∃ item rest, s.task = .sending item rest ∧ client.accepts s.channel.sent.length = false)

section Following
variable {items : List Item} {client : Client} {s : Streaming}

/-- The task will send at least what it has sent. -/
private theorem Following.length_sent_le (hs : Following doCache items client s) :
    s.channel.sent.length ≤ (relay doCache client 0 items).sent.length := by
  rw [← hs.outcome, Streaming.outcome]
  split
  · simp
  · split
    · simp
    · simp [relayed]
  · simp
  · simp [relayed]

/-- An item that is about to be accepted is one of those. -/
private theorem Following.length_sent_lt (hs : Following doCache items client s) {item : Item}
    {rest : List Item} (h : s.task = .sending item rest)
    (ha : client.accepts s.channel.sent.length = true) :
    s.channel.sent.length < (relay doCache client 0 items).sent.length := by
  rw [← hs.outcome]
  cases item with
  | ok bytes => simp [Streaming.outcome, h, ha]
  | error e => simp [Streaming.outcome, h, ha]

/-- A client that is there and has not received enough takes an item. -/
private theorem Following.taking (hs : Following doCache items client s)
    (hopen : s.channel.receiverGone = false) (hqueue : s.channel.queue ≠ [])
    (hmore : s.channel.received.length < target doCache items client) :
    ∃ m t, s.step doCache m = some t ∧ Following doCache items client t := by
  obtain ⟨channel, htake⟩ := Channel.exists_take hqueue
  obtain ⟨a, -, hreceived, hsent, hcapacity, -, hgone⟩ := Channel.take_spec htake
  have hstep : s.step doCache .take = some { s with channel := channel } := by
    simp only [step, htake, Option.map_some]
  refine ⟨.take, _, hstep, ?_, hs.sound.moved (moved_of_step hstep), hs.reading, ?_, ?_, ?_⟩
  · rw [← hs.outcome]
    simp only [Streaming.outcome, relayed, hsent]
  · exact hcapacity ▸ hs.room
  · rw [hreceived, List.length_append, List.length_singleton]
    exact hmore
  · exact fun hgone' => absurd ((hgone.trans hopen).symm.trans hgone') Bool.false_ne_true

/-- A client that nothing more is sent to takes what it still receives, and
hangs up. -/
private theorem Following.leaving (hs : Following doCache items client s)
    (hopen : s.channel.receiverGone = false)
    (hall : (relay doCache client 0 items).sent.length = s.channel.sent.length)
    (hlast : (∃ complete, s.task = .ended complete) ∨
      ∃ item rest, s.task = .sending item rest ∧ client.accepts s.channel.sent.length = false) :
    ∃ m t, s.step doCache m = some t ∧ Following doCache items client t := by
  rcases Nat.lt_or_eq_of_le hs.behind with hmore | henough
  · have hqueue : s.channel.queue ≠ [] := by
      intro hnil
      have hreceived := s.channel.order hopen
      rw [hnil, List.append_nil] at hreceived
      rw [target, hall, hreceived] at hmore
      omega
    exact hs.taking hopen hqueue hmore
  · have hstep : s.step doCache .hangUp = some { s with channel := s.channel.closeReceiver } :=
      if_pos ⟨hopen, hs.reading⟩
    refine ⟨.hangUp, _, hstep, ?_, hs.sound.moved (moved_of_step hstep), hs.reading, hs.room,
      hs.behind, fun _ => ⟨henough, hlast⟩⟩
    rw [← hs.outcome]
    rfl

private theorem Following.polling (hs : Following doCache items client s) {rest : List Item}
    (h : s.task = .polling rest) :
    ∃ m t, s.step doCache m = some t ∧ Following doCache items client t := by
  have hopen : ¬ s.channel.receiverGone = true := by
    intro hgone
    rcases (hs.gone hgone).2 with ⟨complete, h'⟩ | ⟨item, rest', h', -⟩
    · cases h.symm.trans h'
    · cases h.symm.trans h'
  let elapsed := client.elapsed s.channel.sent.length
  -- Polling leaves what is in the channel, and the client, alone.
  have hpoll {t : Streaming} (hstep : s.step doCache (.poll elapsed) = some t)
      (hsame : t.outcome doCache client = s.outcome doCache client)
      (hreading : t.atEnd = s.atEnd) (hcapacity : t.channel.capacity = s.channel.capacity)
      (hreceived : t.channel.received = s.channel.received)
      (hgone : t.channel.receiverGone = s.channel.receiverGone) :
      ∃ m t, s.step doCache m = some t ∧ Following doCache items client t :=
    ⟨.poll elapsed, t, hstep, hsame.trans hs.outcome, hs.sound.moved (moved_of_step hstep),
      hreading.trans hs.reading, hcapacity ▸ hs.room, hreceived ▸ hs.behind,
      fun h => absurd (hgone ▸ h) hopen⟩
  rcases rest with - | ⟨item, rest⟩
  · refine hpoll (t := s.leave s.channel true) (by simp only [step, poll, h]) ?_ rfl rfl rfl rfl
    simp [Streaming.outcome, h, leave, relay, relayed]
  · cases item with
    | ok bytes =>
        refine hpoll (t := s.chunk doCache elapsed bytes rest) (by simp only [step, poll, h]) ?_
          rfl rfl rfl rfl
        simp only [Streaming.outcome, Streaming.chunk, h, relay]
        by_cases ha : client.accepts s.channel.sent.length = true
        · simp [ha, elapsed, List.append_assoc]
        · simp [ha, elapsed, relayed]
    | error e =>
        refine hpoll (t := { s with task := .sending (.error e) rest })
          (by simp only [step, poll, h]) ?_ rfl rfl rfl rfl
        simp only [Streaming.outcome, h, relay]

/-- The item is not taken: the client leaves, or has left. -/
private theorem Following.declined (hs : Following doCache items client s) {item : Item}
    {rest : List Item} (h : s.task = .sending item rest)
    (ha : client.accepts s.channel.sent.length = false) :
    ∃ m t, s.step doCache m = some t ∧ Following doCache items client t := by
  cases hgone : s.channel.receiverGone with
  | false =>
      refine hs.leaving hgone ?_ (.inr ⟨item, rest, h, ha⟩)
      rw [← hs.outcome]
      cases item with
      | ok bytes => simp [Streaming.outcome, h, ha, relayed]
      | error e => simp [Streaming.outcome, h, ha]
  | true =>
      have hstep : s.step doCache .refused = some (s.leave s.channel false) := by
        simp only [step, h, hgone]
      refine ⟨.refused, _, hstep, ?_, hs.sound.moved (moved_of_step hstep), hs.reading, hs.room,
        hs.behind, fun _ => ⟨(hs.gone hgone).1, .inl ⟨false, rfl⟩⟩⟩
      rw [← hs.outcome]
      cases item with
      | ok bytes => simp [Streaming.outcome, h, ha, leave, relayed]
      | error e => simp [Streaming.outcome, h, ha, leave, relayed]

private theorem Following.accepted (hs : Following doCache items client s) {item : Item}
    {rest : List Item} (h : s.task = .sending item rest)
    (ha : client.accepts s.channel.sent.length = true) :
    ∃ m t, s.step doCache m = some t ∧ Following doCache items client t := by
  have hopen : s.channel.receiverGone = false := by
    cases hgone : s.channel.receiverGone with
    | false => rfl
    | true =>
        rcases (hs.gone hgone).2 with ⟨complete, h'⟩ | ⟨_, _, -, hno⟩
        · cases h.symm.trans h'
        · cases ha.symm.trans hno
  by_cases hroom : s.channel.queue.length < s.channel.capacity
  · obtain ⟨channel, hpush⟩ := Channel.exists_push ⟨hopen, hroom⟩ item
    obtain ⟨-, -, hsent, hreceived, hcapacity, -, hgone⟩ := Channel.push_spec hpush
    have hstep : s.step doCache .push = some (s.pushed item rest channel) := by
      simp only [step, h, hpush, Option.map_some]
    obtain ⟨hopen', hcapacity', hreceived', hend⟩ :
        (s.pushed item rest channel).channel.receiverGone = false ∧
        (s.pushed item rest channel).channel.capacity = s.channel.capacity ∧
        (s.pushed item rest channel).channel.received = s.channel.received ∧
        (s.pushed item rest channel).atEnd = s.atEnd := by
      cases item with
      | ok bytes => exact ⟨hgone.trans hopen, hcapacity, hreceived, rfl⟩
      | error e => exact ⟨hgone.trans hopen, hcapacity, hreceived, rfl⟩
    refine ⟨.push, _, hstep, ?_, hs.sound.moved (moved_of_step hstep), hend.trans hs.reading,
      hcapacity' ▸ hs.room, hreceived' ▸ hs.behind,
      fun hgone' => absurd (hopen'.symm.trans hgone') Bool.false_ne_true⟩
    rw [← hs.outcome]
    cases item with
    | ok bytes =>
        simp only [Streaming.outcome, h, ha, pushed, hsent, List.length_append,
          List.length_singleton]
        simp [List.append_assoc]
    | error e => simp [Streaming.outcome, h, ha, pushed, leave, relayed, hsent]
  · -- The channel is full, and another item is to come.
    have hfull : s.channel.capacity ≤ s.channel.queue.length := Nat.le_of_not_lt hroom
    have hqueue : s.channel.queue ≠ [] := by
      intro hnil
      have := s.channel.positive
      rw [hnil, List.length_nil] at hfull
      omega
    refine hs.taking hopen hqueue ?_
    have hlt := hs.length_sent_lt h ha
    have := hs.room
    rw [← s.channel.order hopen, List.length_append] at hlt
    rw [target]
    omega

private theorem Following.sending (hs : Following doCache items client s) {item : Item}
    {rest : List Item} (h : s.task = .sending item rest) :
    ∃ m t, s.step doCache m = some t ∧ Following doCache items client t := by
  cases ha : client.accepts s.channel.sent.length with
  | false => exact hs.declined h ha
  | true => exact hs.accepted h ha

private theorem Following.ended (hs : Following doCache items client s) {complete : Bool}
    (h : s.task = .ended complete) (hopen : s.channel.receiverGone = false) :
    ∃ m t, s.step doCache m = some t ∧ Following doCache items client t := by
  refine hs.leaving hopen ?_ (.inl ⟨complete, h⟩)
  rw [← hs.outcome, outcome_ended h]
  rfl

end Following

/-- Whatever `relay` says for a client that leaves no more than the channel
holds, is the outcome of some run. -/
theorem exists_run_of_client (doCache : Bool) {capacity : Nat} (positive : 0 < capacity)
    (items : List Item) {client : Client} (hunread : client.unread ≤ capacity) :
    ∃ ms s complete, Machine.run (step doCache) (start capacity positive items) ms = some s ∧
      s.task = .ended complete ∧ s.Settled ∧ s.relayed complete = relay doCache client 0 items ∧
        s.channel.received = client.received s.channel.sent := by
  have hstart : Following doCache items client (start capacity positive items) :=
    ⟨outcome_start positive items client, .start positive items, rfl, hunread, Nat.zero_le _,
      fun h => absurd h Bool.false_ne_true⟩
  have hstep (s : Streaming) (hs : Following doCache items client s) :
      ((∃ complete, s.task = .ended complete) ∧ s.channel.receiverGone = true) ∨
        ∃ m t, step doCache s m = some t ∧ Following doCache items client t := by
    cases htask : s.task with
    | polling rest => exact .inr (hs.polling htask)
    | sending item rest => exact .inr (hs.sending htask)
    | ended complete =>
        cases hgone : s.channel.receiverGone with
        | false => exact .inr (hs.ended htask hgone)
        | true => exact .inl ⟨⟨complete, rfl⟩, rfl⟩
  obtain ⟨ms, s, hrun, ⟨⟨complete, hended⟩, hgone⟩, hs⟩ :=
    Machine.exists_run step_movesLeft hstep hstart
  have hrelayed : s.relayed complete = relay doCache client 0 items :=
    (outcome_ended hended client).symm.trans hs.outcome
  refine ⟨ms, s, complete, hrun, hended, ⟨⟨complete, hended⟩, .inl hgone⟩, hrelayed, ?_⟩
  have hlength : s.channel.received.length = s.channel.sent.length - client.unread := by
    rw [(hs.gone hgone).1, target, ← hrelayed]
    rfl
  rw [Client.received, ← hlength]
  exact List.prefix_iff_eq_take.mp s.channel.received_prefix

/-- The capacity of the channel stays as it is. -/
theorem Moved.capacity {s t : Streaming} (h : Moved doCache s t) :
    t.channel.capacity = s.channel.capacity := by
  cases h with
  | eof | chunk | failure | refused | finish | hangUp => rfl
  | push bytes rest channel h hpush => exact (Channel.push_spec hpush).2.2.2.2.1
  | pushError e rest channel h hpush => exact (Channel.push_spec hpush).2.2.2.2.1
  | take channel htake =>
      obtain ⟨_, -, -, -, hcapacity, -⟩ := Channel.take_spec htake
      exact hcapacity

/-- A run in which the task has ended has an outcome that `relay` has for some
client, which leaves no more than the channel holds. -/
theorem client_of_run {capacity : Nat} {positive : 0 < capacity} {items : List Item}
    {ms : List Move} {s : Streaming} {complete : Bool}
    (h : Machine.run (step doCache) (start capacity positive items) ms = some s)
    (hended : s.task = .ended complete) :
    ∃ client, client.unread ≤ capacity ∧ s.relayed complete = relay doCache client 0 items ∧
      s.channel.received = client.received s.channel.sent := by
  have hlast : s.Possible doCache (s.relayed complete) :=
    ⟨⟨fun _ => true, fun _ => 0, 0⟩, outcome_ended hended _⟩
  have hback (s : Streaming) (m : Move) (t : Streaming) (hstep : s.step doCache m = some t)
      (r : Relayed) : t.Possible doCache r → s.Possible doCache r :=
    (moved_of_step hstep).possible
  have hsame (s : Streaming) (m : Move) (t : Streaming) (hs : s.channel.capacity = capacity)
      (hstep : s.step doCache m = some t) : t.channel.capacity = capacity :=
    (moved_of_step hstep).capacity.trans hs
  have hcapacity : s.channel.capacity = capacity := Machine.run_invariant hsame rfl h
  obtain ⟨client, hclient⟩ := Machine.run_backward hback h hlast
  have hrelayed : relay doCache client 0 items = s.relayed complete :=
    (outcome_start positive items client).symm.trans hclient
  refine ⟨{ client with unread := s.channel.sent.length - s.channel.received.length }, ?_, ?_, ?_⟩
  · have := s.channel.length_sent_le
    simp only
    omega
  · rw [← hrelayed]
    apply relay_congr
    · exact fun _ _ => rfl
    · exact fun _ _ => rfl
  · have hle := s.channel.received_prefix.length_le
    rw [Client.received, Nat.sub_sub_self hle]
    exact List.prefix_iff_eq_take.mp s.channel.received_prefix

end Streaming

/-! ### What holds in every order -/

namespace ServerConfig

variable {cfg : ServerConfig} {req : Request} {a : Admitted} {u : UpstreamResponse}
variable {items : List Item} {found : Text → Except CacheError (Option Exchange)}
variable {send : UpstreamRequest → Except Text UpstreamResponse}

/-- What a miss comes to when the background task has ended: what the client has
received, and what the task writes. -/
def handledAfter (req : Request) (a : Admitted) (u : UpstreamResponse) (s : Streaming)
    (complete : Bool) : Handled :=
  ⟨missResponse a u s.channel.received, writeCalls req a u (s.relayed complete)⟩

/-- The handler with a client that is there for each item or not, and leaves some
of them unread, says what can come of a miss, no more and no less: its outcomes
are those of the task and the client taking their moves in some order, where the
client leaves no more than the channel holds. -/
theorem handle_interleavings (hmiss : cfg.Missed req found) (h : cfg.Relays req send a u items)
    {capacity : Nat} (positive : 0 < capacity) (handled : Handled) :
    (∃ ms s complete,
      Machine.run (Streaming.step (doCache a u)) (.start capacity positive items) ms = some s ∧
        s.task = .ended complete ∧ s.Settled ∧ handled = handledAfter req a u s complete) ↔
      ∃ client, client.unread ≤ capacity ∧ cfg.handle req found send client = handled := by
  constructor
  · rintro ⟨ms, s, complete, hrun, hended, -, rfl⟩
    obtain ⟨client, hunread, hclient, hreceived⟩ := Streaming.client_of_run hrun hended
    refine ⟨client, hunread, ?_⟩
    rw [handle_relays hmiss h, handledAfter, ← hclient, hreceived]
    rfl
  · rintro ⟨client, hunread, rfl⟩
    obtain ⟨ms, s, complete, hrun, hended, hsettled, hclient, hreceived⟩ :=
      Streaming.exists_run_of_client (doCache a u) positive items hunread
    refine ⟨ms, s, complete, hrun, hended, hsettled, ?_⟩
    rw [handle_relays hmiss h, handledAfter, ← hclient, hreceived]
    rfl

theorem handle_interleavings_files : ∃ ms s complete,
    Machine.run (Streaming.step (doCache filesAdmitted cutResponse))
        (.start 32 (by decide) cutResponse.stream) ms = some s ∧
      s.task = .ended complete ∧ s.Settled ∧
        sampleConfig.handle (filesRequest "pageToken=a") (fun _ => .ok none)
            (fun _ => .ok cutResponse) hastyClient =
          handledAfter (filesRequest "pageToken=a") filesAdmitted cutResponse s complete := by
  have hmiss := missed_of_empty sampleConfig (filesRequest "pageToken=a")
  exact (handle_interleavings hmiss (files_relays "pageToken=a") _ _).mpr
    ⟨hastyClient, by decide, rfl⟩

/-- Both chunks are in the channel and the stream has ended when the client goes
away with one of them. -/
def hastily : List Streaming.Move :=
  [.poll 0, .push, .poll 0, .push, .poll 0, .take, .hangUp]

private theorem run_hastily : ∃ s,
    Machine.run (Streaming.step (doCache filesAdmitted cutResponse))
        (.start 32 (by decide) cutResponse.stream) hastily = some s ∧
      s.task = .ended true ∧ s.Settled ∧
      s.channel.received = hastyClient.received cutResponse.stream ∧
      s.relayed true = relay (doCache filesAdmitted cutResponse) hastyClient 0 cutResponse.stream :=
  ⟨_, rfl, rfl, ⟨⟨true, rfl⟩, .inl rfl⟩, rfl, rfl⟩

/-- The response is stored all the same, and a later request gets more of it than
that client got. -/
theorem unread_replayed : ∃ s first provider model e hit,
    Machine.run (Streaming.step (doCache filesAdmitted cutResponse))
        (.start 32 (by decide) cutResponse.stream) hastily = some s ∧
      s.task = .ended true ∧ s.Settled ∧
      handledAfter (filesRequest "pageToken=a") filesAdmitted cutResponse s true =
        ⟨some first, [.put filesAdmitted.key provider model e]⟩ ∧
      sampleConfig.handle (filesRequest "pageToken=a") (fun _ => .ok none)
        (fun _ => .ok cutResponse) hastyClient =
          ⟨some first, [.put filesAdmitted.key provider model e]⟩ ∧
      (sampleConfig.handle (filesRequest "pageToken=a")
        (fun k => ((⟨Cache.sampleCrates, 0⟩ : Cache).get 0 k
          ((⟨Cache.sampleCrates, 0⟩ : Cache).after
            [(0, .put filesAdmitted.key provider model e)])).1)
        (fun _ => .ok cutResponse) eagerClient).response = some hit ∧
      hit.header "x-lcp-cache" = some ("HIT" : Text) ∧ hit.bytes ≠ first.bytes := by
  have hmiss := missed_of_empty sampleConfig (filesRequest "pageToken=a")
  have hcacheable : Cacheable filesAdmitted cutResponse cutResponse.stream hastyClient :=
    { cutResponse_cacheable rfl (by decide) with accepted := fun _ _ => rfl }
  have hkey : ∃ d : Digest, filesAdmitted.key = d.toHex := admitted_key (admitted_filesRequest "")
  obtain ⟨first, hfirst, -, -, hbody⟩ :=
    missResponse_spec (u := cutResponse) hkey (hastyClient.received cutResponse.stream)
  obtain ⟨hit, hhit, -, -, hheader, hbytes⟩ :
      ∃ hit, serveCached (exchangeFor (filesRequest "pageToken=a") filesAdmitted cutResponse
        cutResponse.stream hastyClient) filesAdmitted.key = some hit ∧ _ :=
    serveCached_spec hkey hcacheable
  obtain ⟨s, hrun, htask, hsettled, hreceived, hrelayed⟩ := run_hastily
  obtain ⟨provider, model, e, hcalls, hserved⟩ : ∃ provider model e,
      writeCalls (filesRequest "pageToken=a") filesAdmitted cutResponse
        (relay (doCache filesAdmitted cutResponse) hastyClient 0 cutResponse.stream) =
          [.put filesAdmitted.key provider model e] ∧
        serveCached e filesAdmitted.key = some hit :=
    ⟨_, _, _, writeCalls_of_cacheable hcacheable, hhit⟩
  have hfound : ((⟨Cache.sampleCrates, 0⟩ : Cache).get 0 filesAdmitted.key
      ((⟨Cache.sampleCrates, 0⟩ : Cache).after
        ([] ++ [(0, .put filesAdmitted.key provider model e)]))).1 = .ok (some e) :=
    Cache.get_after_put Cache.sampleCrates_roundTrips (by simp) (by decide)
  rw [List.nil_append] at hfound
  refine ⟨s, first, provider, model, e, hit, hrun, htask, hsettled, ?_, ?_, ?_, hheader, ?_⟩
  · rw [handledAfter, hreceived, hrelayed, hfirst, hcalls]
  · rw [handle_relays hmiss (files_relays "pageToken=a"),
      relay_sent (cacheable_iff.mp hcacheable).1,
      hfirst, hcalls]
  · rw [handle_of_found (admitted_filesRequest "pageToken=a") rfl (by exact hfound), hserved]
  · rw [hbytes, Response.bytes, hbody]
    decide

/-- Whatever the order of the moves, the client has received a beginning of the
stream and the task is ahead of it by no more than the channel holds. A client
that reads to the end has the whole stream or has been told of its failure. -/
theorem streaming_faithful {doCache : Bool} {capacity : Nat} {positive : 0 < capacity}
    {ms : List Streaming.Move} {s : Streaming}
    (h : Machine.run (Streaming.step doCache) (.start capacity positive items) ms = some s) :
    s.channel.received <+: items ∧
      (s.channel.receiverGone = false →
        s.channel.sent.length ≤ s.channel.received.length + s.channel.capacity) ∧
      (s.atEnd = true →
        (s.task = .ended true ∧ s.channel.received = items ∧ Streaming.Whole items) ∨
          s.task = .ended false ∧
            ∃ front e, s.channel.received = front ++ [.error e] ∧ Streaming.Whole front) := by
  have hs := Streaming.Sound.run h
  exact ⟨s.channel.received_prefix.trans hs.sent_prefix, fun _ => s.channel.length_sent_le,
    hs.read_to_end⟩

/-- A chunk at a time through a channel that holds one. -/
private def alternately : List Streaming.Move :=
  [.poll 0, .push, .take, .poll 7, .push, .take, .poll 9, .finish]

private theorem run_alternately : ∃ s,
    Machine.run (Streaming.step true) (.start 1 (by decide) cutResponse.stream) alternately =
        some s ∧
      s.task = .ended true ∧ s.atEnd = true ∧ Utf8.Valid s.responseBuf :=
  ⟨_, rfl, rfl, rfl, by decide⟩

theorem streaming_faithful_files : ∃ s,
    Machine.run (Streaming.step true) (.start 1 (by decide) cutResponse.stream) alternately =
        some s ∧
      s.channel.received = cutResponse.stream := by
  obtain ⟨s, hrun, htask, hend, -⟩ := run_alternately
  refine ⟨s, hrun, ?_⟩
  rcases (streaming_faithful hrun).2.2 hend with h | ⟨h, -⟩
  · exact h.2.1
  · cases htask.symm.trans h

/-- What is stored is the whole stream, and what the client has received by then
is a beginning of it: all of it where the client has read to the end. -/
theorem stored_whole {capacity : Nat} {positive : 0 < capacity} {ms : List Streaming.Move}
    {s : Streaming} {complete : Bool}
    (h : Machine.run (Streaming.step (doCache a u)) (.start capacity positive items) ms = some s)
    (hended : s.task = .ended complete) {key provider : Text} {model : Option Text} {e : Exchange}
    (hput : .put key provider model e ∈ (handledAfter req a u s complete).calls) :
    e.chunks.flatMap (fun chunk => chunk.data.bytes) = items.flatMap itemBytes ∧
      s.channel.received.flatMap itemBytes <+: e.chunks.flatMap (fun chunk => chunk.data.bytes) ∧
      (s.atEnd = true →
        s.channel.received.flatMap itemBytes =
          e.chunks.flatMap fun chunk => chunk.data.bytes) := by
  obtain ⟨client, -, hclient, -⟩ := Streaming.client_of_run h hended
  simp only [handledAfter, hclient] at hput
  by_cases hcacheable : Cacheable a u items client
  · rw [writeCalls_of_cacheable hcacheable] at hput
    rcases List.mem_cons.mp hput with heq | htrace
    · obtain ⟨-, -, -, rfl⟩ := Cache.Op.put.inj heq
      have hbytes : (exchangeFor req a u items client).chunks.flatMap
          (fun chunk => chunk.data.bytes) = items.flatMap itemBytes := exchangeFor_bytes hcacheable
      have hs := Streaming.Sound.run h
      obtain ⟨later, hreceived⟩ := s.channel.received_prefix.trans hs.sent_prefix
      refine ⟨hbytes, ?_, fun hend => ?_⟩
      · rw [hbytes, ← hreceived, List.flatMap_append]
        exact List.prefix_append _ _
      · rcases hs.read_to_end hend with ⟨-, hall, -⟩ | ⟨htask, -⟩
        · rw [hbytes, hall]
        · have hcomplete := congrArg Relayed.complete hclient
          rw [(cacheable_iff.mp hcacheable).1] at hcomplete
          cases (show complete = true from hcomplete)
          cases hended.symm.trans htask
    · obtain ⟨tid, -, heq⟩ := Option.map_eq_some_iff.mp (Option.mem_toList.mp htrace)
      cases heq
  · rw [writeCalls_of_not_cacheable hcacheable] at hput
    cases hput

theorem stored_whole_files : ∃ (s : Streaming) (e : Exchange),
    Machine.run (Streaming.step true) (.start 1 (by decide) cutResponse.stream) alternately =
        some s ∧
      s.channel.received.flatMap itemBytes = e.chunks.flatMap fun chunk => chunk.data.bytes := by
  obtain ⟨s, hrun, htask, hend, hvalid⟩ := run_alternately
  have hcalls : (handledAfter (filesRequest "pageToken=a") filesAdmitted cutResponse s true).calls =
      .put filesAdmitted.key _ _ _ :: traceCalls filesAdmitted :=
    if_pos ⟨rfl, rfl, hvalid, by decide⟩
  have hput := hcalls ▸ List.mem_cons_self
  have hwhole := stored_whole (a := filesAdmitted) (u := cutResponse) hrun htask hput
  exact ⟨s, _, hrun, hwhole.2.2 hend⟩

/-- Nobody waits forever: no run is longer than three moves an item and two
more, each can go on until the task has ended and the client reads no more, and
only there no move is left. -/
theorem streaming_ends {doCache : Bool} {capacity : Nat} {positive : 0 < capacity}
    {ms : List Streaming.Move} {s : Streaming}
    (h : Machine.run (Streaming.step doCache) (.start capacity positive items) ms = some s) :
    ms.length ≤ 3 * items.length + 2 ∧ (Machine.Stuck (Streaming.step doCache) s ↔ s.Settled) ∧
      ∃ ms' t, Machine.run (Streaming.step doCache) (.start capacity positive items) (ms ++ ms') =
          some t ∧ t.Settled := by
  have hs := Streaming.Sound.run h
  refine ⟨?_, hs.stuck_iff, ?_⟩
  · have := Machine.length_le Streaming.step_movesLeft h
    have hstart : (Streaming.start capacity positive items).movesLeft = 3 * items.length + 2 := rfl
    omega
  · obtain ⟨ms', t, hrest, hstuck⟩ := Machine.exists_stuck Streaming.step_movesLeft s
    have hrun := Machine.run_append.mpr ⟨s, h, hrest⟩
    exact ⟨ms', t, hrun, (Streaming.Sound.run hrun).stuck_iff.mp hstuck⟩

theorem streaming_ends_files : ∃ ms t,
    Machine.run (Streaming.step true) (.start 1 (by decide) cutResponse.stream)
        ([.poll 0, .push] ++ ms) = some t ∧ t.Settled := by
  have hrun : Machine.run (Streaming.step true) (.start 1 (by decide) cutResponse.stream)
      [.poll 0, .push] = some _ := rfl
  exact (streaming_ends hrun).2.2

end ServerConfig

end LlmCacheProxy
