import LlmCacheProxy.Foundation.Machine
import Mathlib.Algebra.Order.Group.Nat
import Mathlib.Algebra.Ring.Nat
import Mathlib.Data.List.Perm.Basic
import Mathlib.Data.List.Perm.Subperm

/-!
# A set of tasks under a lock

Tasks do their work in the background; their handles are kept in a set that a
lock protects. Whoever spawns a task takes the lock, puts the handle into the
set, removes the handles of finished tasks and gives the lock back. Whoever
waits takes the lock, joins all tasks and gives it back when the set is empty.
The tasks themselves never take the lock, but part of their work waits for the
outside, which may let them go on or not.
-/

namespace TaskPool

/-- A task in the set, with what it has done and what is left to do. -/
structure Handle (α : Type*) where
  made : List α
  left : List α

namespace Handle

variable {α : Type*}

def work (h : Handle α) : List α := h.made ++ h.left

def Finished (h : Handle α) : Prop := h.left = []

/-- What the task has to do next waits for the outside. -/
def Waits (waits : α → Bool) (h : Handle α) : Prop :=
  ∃ a left, h.left = a :: left ∧ waits a = true

instance (h : Handle α) : Decidable h.Finished :=
  decidable_of_iff (h.left.isEmpty = true) List.isEmpty_iff

end Handle

/-- Who has the lock. -/
inductive Holder (α : Type*) where
  | nobody
  /-- About to spawn a task with this work. -/
  | spawner (work : List α)
  /-- Behind the spawn, while finished tasks are removed. -/
  | reaper
  | waiter

/-- The handle that the holder has put in itself. -/
def Holder.extra {α : Type*} : Holder α → Nat
  | .reaper => 1
  | _ => 0

/-- What the holder has yet to do, with the task that it is about to spawn. -/
def Holder.load {α : Type*} : Holder α → Nat
  | .nobody => 0
  | .spawner work => work.length + 3
  | .reaper | .waiter => 1

structure Pool (α : Type*) where
  holder : Holder α
  tasks : List (Handle α)
  /-- The works of those that wait for the lock to spawn a task. -/
  queue : List (List α)
  /-- How many wait for the lock to wait for all tasks. -/
  waiters : Nat
  /-- The works of all tasks that were spawned, and of those whose handles are gone. -/
  spawned : List (List α)
  joined : List (List α)
  /-- Everything that was done, oldest first. -/
  done : List α
  /-- The most tasks that were ever unfinished at a time. -/
  peak : Nat

inductive Move where
  | lock (i : Nat)
  | spawn
  | reap (i : Nat)
  | unlock
  | lockWait
  | join (i : Nat)
  | giveBack
  /-- The task does the first thing that is left. -/
  | work (i : Nat)
  /-- The outside lets the task do it. -/
  | outside (i : Nat)

/-- A move that the outside has no part in. -/
def Move.Inside : Move → Prop
  | .outside _ => False
  | _ => True

namespace Pool

variable {α : Type*}

def empty : Pool α := ⟨.nobody, [], [], 0, [], [], [], 0⟩

/-- Somebody comes to spawn a task. -/
def request (p : Pool α) (work : List α) : Pool α := { p with queue := p.queue ++ [work] }

/-- Somebody comes to wait for all tasks. -/
def await (p : Pool α) : Pool α := { p with waiters := p.waiters + 1 }

/-- How many tasks are unfinished. -/
def unfinished (tasks : List (Handle α)) : Nat := tasks.countP fun h => ¬ h.Finished

/-- The handle of a finished task is removed. -/
def removed (p : Pool α) (i : Nat) : Option (Pool α) :=
  match p.tasks[i]? with
  | some h =>
      if h.Finished then
        some { p with tasks := p.tasks.eraseIdx i, joined := p.joined ++ [h.work] }
      else none
  | none => none

/-- The task does the first thing that is left, where this is possible. -/
def worked (p : Pool α) (i : Nat) (possible : α → Bool) : Option (Pool α) :=
  match p.tasks[i]? with
  | some ⟨made, a :: left⟩ =>
      if possible a then
        some { p with tasks := p.tasks.set i ⟨made ++ [a], left⟩, done := p.done ++ [a] }
      else none
  | _ => none

def step (waits : α → Bool) (p : Pool α) : Move → Option (Pool α)
  | .lock i =>
      match p.holder, p.queue[i]? with
      | .nobody, some work =>
          some { p with holder := .spawner work, queue := p.queue.eraseIdx i }
      | _, _ => none
  | .spawn =>
      match p.holder with
      | .spawner work =>
          let tasks := p.tasks ++ [⟨[], work⟩]
          some { p with
            holder := .reaper
            tasks := tasks
            spawned := p.spawned ++ [work]
            peak := max p.peak (unfinished tasks) }
      | _ => none
  | .reap i =>
      match p.holder with
      | .reaper => p.removed i
      | _ => none
  | .unlock =>
      match p.holder with
      | .reaper => if ∀ h ∈ p.tasks, ¬ h.Finished then some { p with holder := .nobody } else none
      | _ => none
  | .lockWait =>
      match p.holder, p.waiters with
      | .nobody, n + 1 => some { p with holder := .waiter, waiters := n }
      | _, _ => none
  | .join i =>
      match p.holder with
      | .waiter => p.removed i
      | _ => none
  | .giveBack =>
      match p.holder with
      | .waiter => if p.tasks = [] then some { p with holder := .nobody } else none
      | _ => none
  | .work i => p.worked i fun a => !waits a
  | .outside i => p.worked i waits

/-! ### What a move does -/

inductive Moved (p : Pool α) : Pool α → Prop where
  | lock (before after : List (List α)) (work : List α) (free : p.holder = .nobody)
      (h : p.queue = before ++ work :: after) :
      Moved p { p with holder := .spawner work, queue := before ++ after }
  | spawn (work : List α) (h : p.holder = .spawner work) :
      Moved p { p with
        holder := .reaper
        tasks := p.tasks ++ [⟨[], work⟩]
        spawned := p.spawned ++ [work]
        peak := max p.peak (unfinished (p.tasks ++ [⟨[], work⟩])) }
  | remove (before after : List (Handle α)) (handle : Handle α)
      (locked : p.holder = .reaper ∨ p.holder = .waiter)
      (h : p.tasks = before ++ handle :: after) (finished : handle.Finished) :
      Moved p { p with tasks := before ++ after, joined := p.joined ++ [handle.work] }
  | unlock (locked : p.holder = .reaper) (running : ∀ h ∈ p.tasks, ¬ h.Finished) :
      Moved p { p with holder := .nobody }
  | lockWait (n : Nat) (free : p.holder = .nobody) (h : p.waiters = n + 1) :
      Moved p { p with holder := .waiter, waiters := n }
  | giveBack (locked : p.holder = .waiter) (empty : p.tasks = []) :
      Moved p { p with holder := .nobody }
  | work (before after : List (Handle α)) (made : List α) (a : α) (left : List α)
      (h : p.tasks = before ++ ⟨made, a :: left⟩ :: after) :
      Moved p { p with tasks := before ++ ⟨made ++ [a], left⟩ :: after, done := p.done ++ [a] }

private theorem exists_split {β : Type*} {l : List β} {i : Nat} {b : β} (h : l[i]? = some b) :
    ∃ before after, l = before ++ b :: after ∧ l.eraseIdx i = before ++ after ∧
      ∀ b', l.set i b' = before ++ b' :: after := by
  obtain ⟨hi, rfl⟩ := List.getElem?_eq_some_iff.mp h
  refine ⟨l.take i, l.drop (i + 1), ?_, List.eraseIdx_eq_take_drop_succ l i, fun b' => ?_⟩
  · rw [List.getElem_cons_drop, List.take_append_drop]
  · rw [List.set_eq_take_append_cons_drop, if_pos hi]

private theorem moved_of_removed {p q : Pool α} {i : Nat}
    (locked : p.holder = .reaper ∨ p.holder = .waiter) (h : p.removed i = some q) : Moved p q := by
  unfold removed at h
  split at h
  · rename_i handle hi
    obtain ⟨before, after, hsplit, herase, -⟩ := exists_split hi
    split at h
    · rename_i hfinished
      obtain rfl := Option.some.inj h
      exact herase ▸ .remove before after handle locked hsplit hfinished
    · cases h
  · cases h

private theorem moved_of_worked {p q : Pool α} {i : Nat} {possible : α → Bool}
    (h : p.worked i possible = some q) : Moved p q := by
  unfold worked at h
  split at h
  · rename_i made a left hi
    obtain ⟨before, after, hsplit, -, hset⟩ := exists_split hi
    split at h
    · obtain rfl := Option.some.inj h
      exact hset _ ▸ .work before after made a left hsplit
    · cases h
  · cases h

theorem moved_of_step {waits : α → Bool} {p q : Pool α} {m : Move} (h : p.step waits m = some q) :
    Moved p q := by
  cases m with
  | lock i =>
      simp only [step] at h
      split at h
      · rename_i work hfree hi
        obtain ⟨before, after, hsplit, herase, -⟩ := exists_split hi
        obtain rfl := Option.some.inj h
        exact herase ▸ .lock before after work hfree hsplit
      · cases h
  | spawn =>
      simp only [step] at h
      split at h
      · exact Option.some.inj h ▸ .spawn _ ‹_›
      · cases h
  | reap i =>
      simp only [step] at h
      split at h
      · exact moved_of_removed (.inl ‹_›) h
      · cases h
  | unlock =>
      simp only [step] at h
      split at h
      · split at h
        · exact Option.some.inj h ▸ .unlock ‹_› ‹_›
        · cases h
      · cases h
  | lockWait =>
      simp only [step] at h
      split at h
      · exact Option.some.inj h ▸ .lockWait _ ‹_› ‹_›
      · cases h
  | join i =>
      simp only [step] at h
      split at h
      · exact moved_of_removed (.inr ‹_›) h
      · cases h
  | giveBack =>
      simp only [step] at h
      split at h
      · split at h
        · exact Option.some.inj h ▸ .giveBack ‹_› ‹_›
        · cases h
      · cases h
  | work i => exact moved_of_worked h
  | outside i => exact moved_of_worked h

/-! ### Nothing is lost and nothing is done twice -/

structure Conserved (p : Pool α) : Prop where
  spawned : p.spawned.Perm (p.tasks.map Handle.work ++ p.joined)
  done : p.done.Perm (p.tasks.flatMap Handle.made ++ p.joined.flatten)
  /-- Every task does its work in order. -/
  making : ∀ h ∈ p.tasks, h.made.Sublist p.done
  made : ∀ work ∈ p.joined, work.Sublist p.done

theorem Conserved.empty : Conserved (.empty : Pool α) :=
  ⟨.rfl, .rfl, fun _ h => absurd h List.not_mem_nil, fun _ h => absurd h List.not_mem_nil⟩

theorem Conserved.request {p : Pool α} (h : Conserved p) (work : List α) :
    Conserved (p.request work) :=
  ⟨h.spawned, h.done, h.making, h.made⟩

theorem Conserved.await {p : Pool α} (h : Conserved p) : Conserved p.await :=
  ⟨h.spawned, h.done, h.making, h.made⟩

private theorem made_eq_work {h : Handle α} (hfinished : h.Finished) : h.made = h.work := by
  rw [Handle.work, hfinished, List.append_nil]

theorem Conserved.moved {p q : Pool α} (hp : Conserved p) (h : Moved p q) : Conserved q := by
  cases h with
  | lock | unlock | lockWait | giveBack => exact ⟨hp.spawned, hp.done, hp.making, hp.made⟩
  | spawn work h =>
      refine ⟨?_, ?_, ?_, hp.made⟩
      · simp only [List.map_append, List.map_cons, List.map_nil, List.append_assoc]
        exact ((hp.spawned.append_right _).trans (by
          simp only [List.append_assoc]
          exact (List.perm_append_comm.append_left _)))
      · simpa using hp.done
      · intro handle hmem
        rcases List.mem_append.mp hmem with hmem | hmem
        · exact hp.making handle hmem
        · rw [List.mem_singleton.mp hmem]
          exact List.nil_sublist _
  | remove before after handle locked h finished =>
      have hspawned := hp.spawned
      have hdone := hp.done
      rw [h] at hspawned hdone
      refine ⟨hspawned.trans ?_, hdone.trans ?_, ?_, ?_⟩
      · simp only [List.map_append, List.map_cons, List.append_assoc, List.cons_append]
        exact (List.perm_middle.trans (by
          rw [← List.append_assoc, ← List.append_assoc, ← List.append_assoc]
          exact (List.perm_append_singleton _ _).symm))
      · simp only [List.flatMap_append, List.flatMap_cons, List.flatten_append, List.flatten_cons,
          List.flatten_nil, List.append_nil, made_eq_work finished, List.append_assoc]
        refine List.Perm.append_left _ ?_
        exact List.perm_append_comm.trans (by rw [List.append_assoc])
      · intro other hmem
        exact hp.making other (by rw [h]; simp only [List.mem_append, List.mem_cons] at hmem ⊢; tauto)
      · intro work hmem
        rcases List.mem_append.mp hmem with hmem | hmem
        · exact hp.made work hmem
        · rw [List.mem_singleton.mp hmem, ← made_eq_work finished]
          exact hp.making handle (by simp [h])
  | work before after made a left h =>
      have hspawned := hp.spawned
      have hdone := hp.done
      rw [h] at hspawned hdone
      refine ⟨hspawned.trans (by simp [Handle.work]), ?_, ?_, ?_⟩
      · refine (hdone.append_right [a]).trans ?_
        simp only [List.flatMap_append, List.flatMap_cons, List.append_assoc]
        refine List.Perm.append_left _ (List.Perm.append_left _ ?_)
        rw [← List.append_assoc]
        exact List.perm_append_comm
      · intro other hmem
        rcases List.mem_append.mp hmem with hmem | hmem
        · exact (hp.making other (by simp [h, hmem])).trans (List.sublist_append_left _ _)
        rcases List.mem_cons.mp hmem with rfl | hmem
        · exact (hp.making _ (by rw [h]; exact List.mem_append_right _ List.mem_cons_self)).append
            (.refl _)
        · exact (hp.making other (by simp [h, hmem])).trans (List.sublist_append_left _ _)
      · exact fun work hmem => (hp.made work hmem).trans (List.sublist_append_left _ _)

/-- A move adds to what was done. -/
theorem Moved.done_prefix {p q : Pool α} (h : Moved p q) : p.done <+: q.done := by
  cases h with
  | lock | spawn | remove | unlock | lockWait | giveBack => exact List.prefix_rfl
  | work => exact List.prefix_append _ _

/-- When the lock is given back by one who waited, every work that was spawned
has been done, once and in its order. -/
theorem Conserved.all_done {p : Pool α} (hp : Conserved p) (h : p.tasks = []) :
    p.done.Perm p.spawned.flatten ∧ ∀ work ∈ p.spawned, work.Sublist p.done := by
  have hspawned := hp.spawned
  have hdone := hp.done
  simp only [h, List.map_nil, List.flatMap_nil, List.nil_append] at hspawned hdone
  exact ⟨hdone.trans hspawned.flatten.symm,
    fun work hwork => hp.made work (hspawned.mem_iff.mp hwork)⟩

/-! ### Handles do not pile up -/

/-- There are no more handles than tasks were ever unfinished at a time, but for
the one that was just put in. -/
structure Bounded (p : Pool α) : Prop where
  running : unfinished p.tasks ≤ p.peak
  handles : p.tasks.length ≤ p.peak + p.holder.extra

theorem Bounded.moved {p q : Pool α} (hp : Bounded p) (h : Moved p q) : Bounded q := by
  obtain ⟨hrunning, hhandles⟩ := hp
  cases h with
  | lock before after work free h =>
      rw [free] at hhandles
      exact ⟨hrunning, hhandles⟩
  | spawn work h =>
      rw [h] at hhandles
      refine ⟨Nat.le_max_right _ _, ?_⟩
      have := Nat.le_max_left p.peak (unfinished (p.tasks ++ [⟨[], work⟩]))
      simp only [List.length_append, List.length_singleton, Holder.extra] at hhandles ⊢
      omega
  | remove before after handle locked h finished =>
      rw [h] at hrunning hhandles
      simp only [unfinished, List.countP_append, List.countP_cons, List.length_append,
        List.length_cons] at hrunning hhandles
      constructor
      · simp only [unfinished, List.countP_append]
        omega
      · simp only [List.length_append]
        omega
  | unlock locked running =>
      refine ⟨hrunning, ?_⟩
      have hall : unfinished p.tasks = p.tasks.length :=
        List.countP_eq_length.mpr fun h hmem => decide_eq_true (running h hmem)
      exact hall ▸ hrunning
  | lockWait n free h =>
      rw [free] at hhandles
      exact ⟨hrunning, hhandles⟩
  | giveBack locked empty =>
      rw [locked] at hhandles
      exact ⟨hrunning, hhandles⟩
  | work before after made a left h =>
      rw [h] at hrunning hhandles
      simp only [unfinished, List.countP_append, List.countP_cons, List.length_append,
        List.length_cons, Handle.Finished] at hrunning hhandles
      constructor
      · rw [if_pos (by simp)] at hrunning
        simp only [unfinished, List.countP_append, List.countP_cons, Handle.Finished]
        split
        · exact hrunning
        · omega
      · simp only [List.length_append, List.length_cons]
        omega

/-! ### Everybody gets the lock -/

/-- What is left to do for tasks, spawners and waiters. -/
def load (p : Pool α) : Nat :=
  (p.queue.map fun work => work.length + 4).sum + p.holder.load +
    (p.tasks.map fun h => h.left.length + 1).sum + 2 * p.waiters

theorem Moved.load_lt {p q : Pool α} (h : Moved p q) : q.load < p.load := by
  cases h with
  | lock before after work free h =>
      simp only [load, free, h, Holder.load, List.map_append, List.map_cons, List.sum_append,
        List.sum_cons]
      omega
  | spawn work h =>
      simp only [load, h, Holder.load, List.map_append, List.map_cons, List.map_nil,
        List.sum_append, List.sum_cons, List.sum_nil]
      omega
  | remove before after handle locked h finished =>
      simp only [load, h, List.map_append, List.map_cons, List.sum_append, List.sum_cons]
      omega
  | unlock locked running =>
      simp only [load, locked, Holder.load]
      omega
  | lockWait n free h =>
      simp only [load, free, h, Holder.load]
      omega
  | giveBack locked empty =>
      simp only [load, locked, Holder.load]
      omega
  | work before after made a left h =>
      simp only [load, h, List.map_append, List.map_cons, List.sum_append, List.sum_cons,
        List.length_cons]
      omega

theorem step_load {waits : α → Bool} (p : Pool α) (m : Move) (q : Pool α)
    (h : p.step waits m = some q) : q.load < p.load :=
  (moved_of_step h).load_lt

/-- Nobody can do anything unless the outside does: every task has finished or
waits for it, and so does one who holds the lock to wait for all tasks. -/
structure Held (waits : α → Bool) (p : Pool α) : Prop where
  tasks : ∀ h ∈ p.tasks, h.Finished ∨ h.Waits waits
  lock : p.holder = .nobody ∧ p.queue = [] ∧ p.waiters = 0 ∨
    p.holder = .waiter ∧ p.tasks ≠ [] ∧ ∀ h ∈ p.tasks, h.Waits waits

/-- Every task has ended, and nobody holds the lock or waits for it. -/
structure Quiet (p : Pool α) : Prop where
  holder : p.holder = .nobody
  queue : p.queue = []
  waiters : p.waiters = 0
  tasks : ∀ h ∈ p.tasks, h.Finished

section Stuck
variable {waits : α → Bool} {p : Pool α}

private theorem worked_eq_none {i : Nat} {possible : α → Bool}
    (h : ∀ handle ∈ p.tasks, ∀ a left, handle.left = a :: left → possible a = false) :
    p.worked i possible = none := by
  unfold worked
  split
  · rename_i made a left hi
    rw [h _ (List.mem_of_getElem? hi) a left rfl]
    rfl
  · rfl

private theorem left_of_worked {possible : α → Bool} (h : ∀ i, p.worked i possible = none) :
    ∀ handle ∈ p.tasks, ∀ a left, handle.left = a :: left → possible a = false := by
  intro handle hmem a left hleft
  obtain ⟨i, hi⟩ := List.mem_iff_getElem?.mp hmem
  obtain ⟨made, _⟩ := handle
  obtain rfl := hleft
  have hnone := h i
  simpa [worked, hi] using hnone

private theorem exists_removed {handle : Handle α} (hmem : handle ∈ p.tasks)
    (hfinished : handle.Finished) : ∃ i, p.removed i ≠ none := by
  obtain ⟨i, hi⟩ := List.mem_iff_getElem?.mp hmem
  exact ⟨i, by simp [removed, hi, hfinished]⟩

private theorem removed_eq_none {i : Nat} (h : ∀ handle ∈ p.tasks, ¬handle.Finished) :
    p.removed i = none := by
  unfold removed
  split
  · rename_i handle hi
    exact if_neg (h handle (List.mem_of_getElem? hi))
  · rfl

private theorem not_finished {h : Handle α} (hwaits : h.Waits waits) : ¬h.Finished := by
  obtain ⟨a, left, hleft, -⟩ := hwaits
  simp [Handle.Finished, hleft]

/-- Where the moves inside have come to an end, a lock that is still held is held by
a waiter. -/
theorem Held.of_stuck (h : ∀ m, m.Inside → p.step waits m = none) : p.Held waits := by
  have htasks : ∀ handle ∈ p.tasks, handle.Finished ∨ handle.Waits waits := by
    intro handle hmem
    cases hleft : handle.left with
    | nil => exact .inl hleft
    | cons a left =>
        have := left_of_worked (fun i => h (.work i) trivial) handle hmem a left hleft
        exact .inr ⟨a, left, hleft, by simpa using this⟩
  have hwaiting (hremoved : ∀ i, p.removed i = none) :
      ∀ handle ∈ p.tasks, handle.Waits waits := by
    intro handle hmem
    rcases htasks handle hmem with hfinished | hwaits
    · obtain ⟨i, hi⟩ := exists_removed hmem hfinished
      exact absurd (hremoved i) hi
    · exact hwaits
  refine ⟨htasks, ?_⟩
  cases hholder : p.holder with
  | nobody =>
      refine .inl ⟨rfl, ?_, ?_⟩
      · have hlock := h (.lock 0) trivial
        cases hqueue : p.queue with
        | nil => rfl
        | cons work rest => simp [step, hholder, hqueue] at hlock
      · have hwait := h .lockWait trivial
        cases hwaiters : p.waiters with
        | zero => rfl
        | succ n => simp [step, hholder, hwaiters] at hwait
  | spawner work =>
      have := h .spawn trivial
      simp [step, hholder] at this
  | reaper =>
      have hall := hwaiting fun i => by simpa [step, hholder] using h (.reap i) trivial
      have hunlock := h .unlock trivial
      simp only [step, hholder, if_pos fun handle hmem => not_finished (hall handle hmem)]
        at hunlock
      cases hunlock
  | waiter =>
      have hall := hwaiting fun i => by simpa [step, hholder] using h (.join i) trivial
      refine .inr ⟨rfl, fun hnil => ?_, hall⟩
      have hback := h .giveBack trivial
      simp [step, hholder, hnil] at hback

theorem Held.stuck (h : p.Held waits) {m : Move} (hm : m.Inside) : p.step waits m = none := by
  have hwork (i : Nat) : p.step waits (.work i) = none := by
    refine worked_eq_none fun handle hmem a left hleft => ?_
    rcases h.tasks handle hmem with hfinished | ⟨a', left', hleft', hwaits⟩
    · cases hfinished.symm.trans hleft
    · obtain ⟨rfl, rfl⟩ := List.cons.inj (hleft'.symm.trans hleft)
      simp [hwaits]
  rcases h.lock with ⟨hholder, hqueue, hwaiters⟩ | ⟨hholder, hne, hall⟩
  · cases m with
    | work i => exact hwork i
    | outside i => cases hm
    | lock | spawn | reap | unlock | lockWait | join | giveBack =>
        simp [step, hholder, hqueue, hwaiters]
  · cases m with
    | work i => exact hwork i
    | outside i => cases hm
    | join i =>
        simp only [step, hholder]
        exact removed_eq_none fun handle hmem => not_finished (hall handle hmem)
    | lock | spawn | reap | unlock | lockWait | giveBack => simp [step, hholder, hne]

/-- Tasks, spawners and waiters never wait for one another in a circle: where
only the outside can move, it is the outside that they wait for. -/
theorem held_iff : (∀ m, m.Inside → p.step waits m = none) ↔ p.Held waits :=
  ⟨Held.of_stuck, fun h _ hm => h.stuck hm⟩

/-- Where the outside lets everything go on, no move is left only where all of
them are through. -/
theorem stuck_iff : Machine.Stuck (step waits) p ↔ p.Quiet := by
  constructor
  · intro h
    have hheld : p.Held waits := .of_stuck fun m _ => h m
    have houtside := left_of_worked fun i => h (.outside i)
    have hfinished : ∀ handle ∈ p.tasks, ¬handle.Waits waits := by
      rintro handle hmem ⟨a, left, hleft, hwaits⟩
      cases (houtside handle hmem a left hleft).symm.trans hwaits
    rcases hheld.lock with ⟨hholder, hqueue, hwaiters⟩ | ⟨-, hne, hall⟩
    · exact ⟨hholder, hqueue, hwaiters, fun handle hmem =>
        (hheld.tasks handle hmem).resolve_right (hfinished handle hmem)⟩
    · obtain ⟨handle, hmem⟩ := List.exists_mem_of_ne_nil _ hne
      exact absurd (hall handle hmem) (hfinished handle hmem)
  · intro h m
    cases m with
    | outside i =>
        refine worked_eq_none fun handle hmem a left hleft => ?_
        cases (h.tasks handle hmem).symm.trans hleft
    | lock | spawn | reap | unlock | lockWait | join | giveBack | work =>
        exact held_iff.mpr ⟨fun handle hmem => .inl (h.tasks handle hmem),
          .inl ⟨h.holder, h.queue, h.waiters⟩⟩ _ trivial

end Stuck

end Pool

end TaskPool
