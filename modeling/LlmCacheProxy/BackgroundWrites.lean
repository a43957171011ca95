import LlmCacheProxy.Foundation.TaskPool
import LlmCacheProxy.Streaming

/-!
# Background writes

The handler of a miss spawns a task that relays the response and then writes it
to the cache. The handles of the tasks are in a set under a lock, which
`wait_for_pending_writes` takes to join all of them. Other calls of the cache
are made at any time. When the wait is over, everything that the tasks had to
write has been written, once and in order. A relay comes to its end when client
and upstream do, so as long as one of them holds a relay up, the wait goes on,
with the lock.
-/

namespace LlmCacheProxy

open TaskPool ExpiringStore

/-- What a background task does. -/
inductive Job where
  /-- It relays the response of the request to its end. -/
  | relay (req : Request)
  | call (op : Cache.Op)

/-- A relay waits in `stream.next` for the upstream and in `tx.send` for the client. -/
def Job.waits : Job → Bool
  | .relay _ => true
  | .call _ => false

def Job.op : Job → Option Cache.Op
  | .relay _ => none
  | .call op => some op

/-- The work of the task behind a miss. -/
def workOf (req : Request) (calls : List Cache.Op) : List Job := .relay req :: calls.map .call

structure Serving where
  /-- All calls of the cache, latest first. -/
  history : List (Int × Cache.Op)
  /-- `background_writes`. -/
  background : Pool Job

/-- Only background tasks store an exchange. -/
def Cache.Op.isPut : Cache.Op → Bool
  | .put _ _ _ _ => true
  | _ => false

namespace Serving

def init : Serving := ⟨[], .empty⟩

/-- The calls of the tasks so far, oldest first. -/
def written (s : Serving) : List Cache.Op := s.background.done.filterMap Job.op

/-- The calls that were made between two states of the pool. -/
def callsBetween (p q : Pool Job) : List Cache.Op :=
  (q.done.drop p.done.length).filterMap Job.op

end Serving

namespace ServerConfig

variable (cfg : ServerConfig)

inductive Serves : Serving → Serving → Prop where
  /-- A response of the upstream is to be relayed; the handler comes for the lock. -/
  | miss (s : Serving) (req : Request) (found : Text → Except CacheError (Option Exchange))
      (send : UpstreamRequest → Except Text UpstreamResponse) (client : Client) (a : Admitted)
      (u : UpstreamResponse) (items : List Item) (hmiss : cfg.Missed req found)
      (h : cfg.Relays req send a u items) :
      Serves s ⟨s.history, s.background.request
          (workOf req (cfg.handle req found send client).calls)⟩
  /-- Any other call of the cache: of a handler, or of an administrator. -/
  | other (s : Serving) (now : Int) (op : Cache.Op) (h : op.isPut = false) :
      Serves s ⟨(now, op) :: s.history, s.background⟩
  /-- `wait_for_pending_writes` is called. -/
  | wait (s : Serving) : Serves s ⟨s.history, s.background.await⟩
  /-- A task, a handler at the lock or one who waits makes a move, or client and
  upstream let a relay come to its end. -/
  | move (s : Serving) (now : Int) (m : Move) (q : Pool Job)
      (h : s.background.step Job.waits m = some q) :
      Serves s ⟨(Serving.callsBetween s.background q).map (fun op => (now, op)) ++ s.history, q⟩

/-- What is served from the start. -/
inductive Served : Serving → Prop where
  | init : Served .init
  | step {s t : Serving} : Served s → cfg.Serves s t → Served t

end ServerConfig

namespace Serving

/-- The calls of the tasks stand in the history, and no other call there stores. -/
structure Recorded (s : Serving) : Prop where
  conserved : Pool.Conserved s.background
  calls : s.written.Sublist (s.history.map Prod.snd).reverse
  puts : ((s.history.map Prod.snd).reverse).filter Cache.Op.isPut =
    s.written.filter Cache.Op.isPut

variable {cfg : ServerConfig}

private theorem callsBetween_spec {p q : Pool Job} (h : Pool.Moved p q) :
    q.done.filterMap Job.op = p.done.filterMap Job.op ++ callsBetween p q ∧
      (callsBetween p q).length ≤ 1 := by
  obtain ⟨more, hmore⟩ := h.done_prefix
  have hbetween : callsBetween p q = more.filterMap Job.op := by
    rw [callsBetween, ← hmore, List.drop_left]
  refine ⟨by rw [hbetween, ← hmore, List.filterMap_append], ?_⟩
  have hlength : more.length ≤ 1 := by
    cases h with
    | lock | spawn | remove | unlock | lockWait | giveBack => simp_all
    | work => simp_all
  rw [hbetween]
  exact (List.length_filterMap_le _ _).trans hlength

theorem Recorded.step {s t : Serving} (hs : Recorded s) (h : cfg.Serves s t) : Recorded t := by
  cases h with
  | miss req found send client a u items hmiss h =>
      exact ⟨hs.conserved.request _, hs.calls, hs.puts⟩
  | other now op h =>
      refine ⟨hs.conserved, ?_, ?_⟩
      · rw [List.map_cons, List.reverse_cons]
        exact hs.calls.trans (List.sublist_append_left _ _)
      · rw [List.map_cons, List.reverse_cons, List.filter_append, hs.puts]
        simp [h, written]
  | wait => exact ⟨hs.conserved.await, hs.calls, hs.puts⟩
  | move now m q h =>
      have hmoved := Pool.moved_of_step h
      obtain ⟨hwritten, hone⟩ := callsBetween_spec hmoved
      have hreverse :
          (((callsBetween s.background q).map (fun op => (now, op)) ++ s.history).map
            Prod.snd).reverse =
              (s.history.map Prod.snd).reverse ++ callsBetween s.background q := by
        have hself : (callsBetween s.background q).reverse = callsBetween s.background q :=
          match callsBetween s.background q, hone with
          | [], _ => rfl
          | [_], _ => rfl
        rw [List.map_append, List.reverse_append, List.map_map]
        congr 1
        simpa using hself
      refine ⟨hs.conserved.moved hmoved, ?_, ?_⟩
      · rw [hreverse, written, hwritten]
        exact hs.calls.append_right _
      · rw [hreverse, written, hwritten, List.filter_append, hs.puts, List.filter_append]
        rfl

theorem recorded {s : Serving} (h : cfg.Served s) : Recorded s := by
  induction h with
  | init => exact ⟨.empty, List.Sublist.refl _, rfl⟩
  | step _ hstep ih => exact ih.step hstep

/-- A call that was made is in the history, with what came before and after it. -/
private theorem exists_split_history {history : List (Int × Cache.Op)} {op : Cache.Op}
    (h : op ∈ history.map Prod.snd) :
    ∃ later t earlier, history = later ++ (t, op) :: earlier := by
  obtain ⟨⟨t, _⟩, hmem, rfl⟩ := List.mem_map.mp h
  obtain ⟨later, earlier, rfl⟩ := List.append_of_mem hmem
  exact ⟨later, t, earlier, rfl⟩

/-- The peak of the pool was reached in some state before. -/
theorem exists_peak {s : Serving} (h : cfg.Served s) :
    ∃ t, cfg.Served t ∧ Relation.ReflTransGen cfg.Serves t s ∧
      s.background.peak = Pool.unfinished t.background.tasks := by
  induction h with
  | init => exact ⟨.init, .init, .refl, rfl⟩
  | @step s s' hs hstep ih =>
      obtain ⟨t, ht, hpath, hpeak⟩ := ih
      have hkept (hsame : s'.background.peak = s.background.peak) :
          ∃ t, cfg.Served t ∧ Relation.ReflTransGen cfg.Serves t s' ∧
            s'.background.peak = Pool.unfinished t.background.tasks :=
        ⟨t, ht, hpath.tail hstep, hsame.trans hpeak⟩
      cases hstep with
      | miss | other | wait => exact hkept rfl
      | move now m q h =>
          cases Pool.moved_of_step h with
          | lock | remove | unlock | lockWait | giveBack | work => exact hkept rfl
          | spawn work hholder =>
              rcases Nat.le_total (Pool.unfinished (s.background.tasks ++ [⟨[], work⟩]))
                s.background.peak with hle | hle
              · exact hkept (Nat.max_eq_left hle)
              · exact ⟨_, hs.step (.move s now m _ h), .refl, Nat.max_eq_right hle⟩

theorem bounded {s : Serving} (h : cfg.Served s) : Pool.Bounded s.background := by
  induction h with
  | init => exact ⟨Nat.le_refl _, Nat.le_refl _⟩
  | step _ hstep ih =>
      cases hstep with
      | miss => exact ⟨ih.running, ih.handles⟩
      | other => exact ih
      | wait => exact ⟨ih.running, ih.handles⟩
      | move now m q h => exact ih.moved (Pool.moved_of_step h)

/-- The lock is waited for as long as relays are held up, and no longer. Without
new requests the moves of tasks, handlers and waiters come to an end, with one
more for each relay. Where only clients and upstreams can go on, all other tasks
have finished, and a waiter that has the lock has it for relays. Where they do go
on, no move is left only where every task has finished, every handler has spawned
its task and every wait is over. -/
theorem waits_end (s : Serving) :
    (∀ ms q, Machine.run (Pool.step Job.waits) s.background ms = some q →
      ms.length ≤ s.background.load ∧
        ((∀ m, m.Inside → q.step Job.waits m = none) ↔ q.Held Job.waits) ∧
        (Machine.Stuck (Pool.step Job.waits) q ↔ q.Quiet)) ∧
    ∃ ms q, Machine.run (Pool.step Job.waits) s.background ms = some q ∧ q.Quiet := by
  constructor
  · intro ms q hrun
    have := Machine.length_le Pool.step_load hrun
    exact ⟨by omega, Pool.held_iff, Pool.stuck_iff⟩
  · obtain ⟨ms, q, hrun, hstuck⟩ := Machine.exists_stuck Pool.step_load s.background
    exact ⟨ms, q, hrun, Pool.stuck_iff.mp hstuck⟩

end Serving

/-! ### When the wait is over -/

namespace ServerConfig

variable {cfg : ServerConfig} {c : Cache}

/-- When `wait_for_pending_writes` finds the set empty, no write of a task that
was spawned is lost or made twice: the calls of each stand in the history in
their order, the tasks' stores are all the stores there are, and what was stored
is found until it expires or is replaced or cleared. -/
theorem written_when_joined (hc : RoundTrips c.crates) {s : Serving} (h : cfg.Served s)
    (hjoined : s.background.tasks = []) :
    (∀ work ∈ s.background.spawned,
      (work.filterMap Job.op).Sublist (s.history.map Prod.snd).reverse) ∧
    ((s.history.map Prod.snd).filter Cache.Op.isPut).Perm
      ((s.background.spawned.flatten.filterMap Job.op).filter Cache.Op.isPut) ∧
    ∀ work ∈ s.background.spawned, ∀ k provider model e,
      .call (.put k provider model e) ∈ work →
        ∃ later t earlier, s.history = later ++ (t, .put k provider model e) :: earlier ∧
          ∀ now, (∀ call ∈ later, Keeps k call.2.event) → c.fresh t now = true →
            (c.get now k (c.after s.history)).1 = .ok (some e) := by
  have hs := Serving.recorded h
  obtain ⟨hperm, hordered⟩ := hs.conserved.all_done hjoined
  have hcalls (work : List Job) (hwork : work ∈ s.background.spawned) :
      (work.filterMap Job.op).Sublist (s.history.map Prod.snd).reverse :=
    ((hordered work hwork).filterMap Job.op).trans hs.calls
  refine ⟨hcalls, ?_, ?_⟩
  · calc
      ((s.history.map Prod.snd).filter Cache.Op.isPut).Perm
          (((s.history.map Prod.snd).reverse).filter Cache.Op.isPut) :=
        (List.reverse_perm _).symm.filter _
      _ = s.written.filter Cache.Op.isPut := hs.puts
      List.Perm _ ((s.background.spawned.flatten.filterMap Job.op).filter Cache.Op.isPut) :=
        (hperm.filterMap _).filter _
  · intro work hwork k provider model e hput
    have hmem : Cache.Op.put k provider model e ∈ s.history.map Prod.snd := by
      rw [← List.mem_reverse]
      exact (hcalls work hwork).subset (List.mem_filterMap.mpr ⟨_, hput, rfl⟩)
    obtain ⟨later, t, earlier, hsplit⟩ := Serving.exists_split_history hmem
    refine ⟨later, t, earlier, hsplit, fun now hkeeps hfresh => ?_⟩
    rw [hsplit]
    exact Cache.get_after_put hc hkeeps hfresh

/-- One miss whose task has been spawned and has done its work. -/
private def servedOnce (provider : Text) (model : Option Text) (e : Exchange) : Serving :=
  let work := workOf (filesRequest "pageToken=a") [.put filesAdmitted.key provider model e]
  ⟨[(0, .put filesAdmitted.key provider model e)],
    ⟨.nobody, [⟨work, []⟩], [], 0, [work], [], work, 1⟩⟩

private theorem served_once : ∃ provider model e,
    sampleConfig.Served (servedOnce provider model e) := by
  have hmiss := missed_of_empty sampleConfig (filesRequest "pageToken=a")
  have hrelays := files_relays "pageToken=a"
  obtain ⟨first, provider, model, e, hhandle, -⟩ :=
    replays_of_cacheable (c := ⟨Cache.sampleCrates, 0⟩) Cache.sampleCrates_roundTrips hmiss hrelays
      (cutResponse_cacheable rfl (by decide))
  have hserved := Served.init.step (.miss .init _ _ _ eagerClient _ _ _ hmiss hrelays)
  rw [congrArg Handled.calls hhandle] at hserved
  have hlock := hserved.step (.move _ 0 (.lock 0) _ rfl)
  have hspawn := hlock.step (.move _ 0 .spawn _ rfl)
  have hunlock := hspawn.step (.move _ 0 .unlock _ rfl)
  have hrelayed := hunlock.step (.move _ 0 (.outside 0) _ rfl)
  have hput := hrelayed.step (.move _ 0 (.work 0) _ rfl)
  exact ⟨provider, model, e, hput⟩

/-- The task is joined. -/
private theorem served_files : ∃ s provider model e,
    sampleConfig.Served s ∧ s.background.tasks = [] ∧
      s.background.spawned =
        [workOf (filesRequest "pageToken=a") [.put filesAdmitted.key provider model e]] := by
  obtain ⟨provider, model, e, honce⟩ := served_once
  have hwait := (honce.step (.wait _)).step (.move _ 0 .lockWait _ rfl)
  exact ⟨_, provider, model, e, hwait.step (.move _ 0 (.join 0) _ rfl), rfl, rfl⟩

theorem written_when_joined_files : ∃ (s : Serving) (e : Exchange) (later earlier : _) (t : Int),
    sampleConfig.Served s ∧ (∃ provider model,
      s.history = later ++ (t, .put filesAdmitted.key provider model e) :: earlier) ∧
    ∀ now, (∀ call ∈ later, Keeps filesAdmitted.key call.2.event) →
      ((⟨Cache.sampleCrates, 0⟩ : Cache).get now filesAdmitted.key
        ((⟨Cache.sampleCrates, 0⟩ : Cache).after s.history)).1 = .ok (some e) := by
  obtain ⟨s, provider, model, e, hserved, hjoined, hspawned⟩ := served_files
  obtain ⟨later, t, earlier, hhistory, hfound⟩ :=
    (written_when_joined (c := ⟨Cache.sampleCrates, 0⟩) Cache.sampleCrates_roundTrips hserved
      hjoined).2.2 _ (hspawned ▸ List.mem_singleton_self _) filesAdmitted.key provider model e
        (List.mem_cons_of_mem _ List.mem_cons_self)
  exact ⟨s, e, later, earlier, t, hserved, ⟨provider, model, hhistory⟩,
    fun now hkeeps => hfound now hkeeps rfl⟩

/-- Handles do not pile up: there are never more of them than tasks were
unfinished at some time before, but for one that the holder of the lock has just
put in. -/
theorem handles_bounded {s : Serving} (h : cfg.Served s) :
    ∃ t, cfg.Served t ∧ Relation.ReflTransGen cfg.Serves t s ∧
      s.background.tasks.length ≤
        Pool.unfinished t.background.tasks + s.background.holder.extra := by
  obtain ⟨t, ht, hpath, hpeak⟩ := Serving.exists_peak h
  exact ⟨t, ht, hpath, hpeak ▸ (Serving.bounded h).handles⟩

/-- The task of a second miss is spawned while the handle of the first is there. -/
private theorem served_twice : ∃ s,
    sampleConfig.Served s ∧ s.background.tasks.length = 2 ∧ s.background.holder.extra = 1 ∧
      Pool.unfinished s.background.tasks = 1 := by
  obtain ⟨provider, model, e, honce⟩ := served_once
  have hmiss := missed_of_empty sampleConfig (filesRequest "pageToken=a")
  have hagain := honce.step
    (.miss _ _ _ _ eagerClient _ _ _ hmiss (files_relays "pageToken=a"))
  have hlock := hagain.step (.move _ 0 (.lock 0) _ rfl)
  exact ⟨_, hlock.step (.move _ 0 .spawn _ rfl), rfl, rfl, rfl⟩

theorem handles_bounded_files : ∃ s t,
    sampleConfig.Served s ∧ s.background.tasks.length = 2 ∧
      Pool.unfinished s.background.tasks = 1 ∧
      sampleConfig.Served t ∧ 2 ≤ Pool.unfinished t.background.tasks + 1 := by
  obtain ⟨s, hserved, htasks, hextra, hunfinished⟩ := served_twice
  obtain ⟨t, ht, -, hle⟩ := handles_bounded hserved
  rw [htasks, hextra] at hle
  exact ⟨s, t, hserved, htasks, hunfinished, ht, hle⟩

end ServerConfig

end LlmCacheProxy
