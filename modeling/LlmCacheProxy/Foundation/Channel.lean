import Mathlib.Data.List.Basic
import Mathlib.Tactic.Common

/-!
# Bounded channels

A queue of bounded length between one sender and one receiver. What the sender
put in comes out in order. A receiver that goes away takes the queue with it,
and nothing can be sent from then on; a sender that goes away leaves the queue to
be read to its end.
-/

structure Channel (α : Type*) where
  capacity : Nat
  queue : List α
  /-- Everything that was put in, oldest first. -/
  sent : List α
  /-- Everything that was taken out. -/
  received : List α
  senderGone : Bool
  receiverGone : Bool
  positive : 0 < capacity
  within : queue.length ≤ capacity
  order : receiverGone = false → received ++ queue = sent
  /-- What a receiver that goes away leaves behind fits into the queue. -/
  drained : receiverGone = true →
    queue = [] ∧ received <+: sent ∧ sent.length ≤ received.length + capacity

namespace Channel

variable {α : Type*}

def new (capacity : Nat) (positive : 0 < capacity) : Channel α :=
  ⟨capacity, [], [], [], false, false, positive, Nat.zero_le _, fun _ => rfl,
    fun h => absurd h Bool.false_ne_true⟩

/-- The receiver is there and the queue has room. -/
def Accepts (c : Channel α) : Prop := c.receiverGone = false ∧ c.queue.length < c.capacity

instance (c : Channel α) : Decidable c.Accepts := inferInstanceAs (Decidable (_ ∧ _))

/-- What has been received is the beginning of what was sent. -/
theorem received_prefix (c : Channel α) : c.received <+: c.sent := by
  cases h : c.receiverGone with
  | false => exact ⟨c.queue, c.order h⟩
  | true => exact (c.drained h).2.1

/-- The sender is ahead of the receiver by no more than the channel holds. -/
theorem length_sent_le (c : Channel α) : c.sent.length ≤ c.received.length + c.capacity := by
  cases h : c.receiverGone with
  | false =>
      rw [← c.order h, List.length_append]
      exact Nat.add_le_add_left c.within _
  | true => exact (c.drained h).2.2

/-- Put a value in, where the channel takes it. -/
def push (c : Channel α) (a : α) : Option (Channel α) :=
  if h : c.Accepts then
    some { c with
      queue := c.queue ++ [a]
      sent := c.sent ++ [a]
      within := by
        rw [List.length_append]
        exact h.2
      order := fun hopen => by rw [← c.order hopen, List.append_assoc]
      drained := fun hgone => absurd (h.1.symm.trans hgone) Bool.false_ne_true }
  else none

/-- Take the oldest value out. -/
def take (c : Channel α) : Option (Channel α) :=
  match h : c.queue with
  | [] => none
  | a :: rest =>
      some { c with
        queue := rest
        received := c.received ++ [a]
        within := by
          have := c.within
          rw [h, List.length_cons] at this
          omega
        order := fun hopen => by
          rw [← c.order hopen, h, List.append_assoc, List.singleton_append]
        drained := fun hgone => absurd (h.symm.trans (c.drained hgone).1)
          (List.cons_ne_nil a rest) }

/-- The sender goes away. -/
def closeSender (c : Channel α) : Channel α := { c with senderGone := true }

/-- The receiver goes away. -/
def closeReceiver (c : Channel α) : Channel α :=
  { c with
    queue := []
    receiverGone := true
    within := Nat.zero_le _
    order := fun hopen => absurd hopen.symm Bool.false_ne_true
    drained := fun _ => ⟨rfl, c.received_prefix, c.length_sent_le⟩ }

/-! ### What an operation changes -/

theorem push_spec {c d : Channel α} {a : α} (h : c.push a = some d) :
    c.Accepts ∧ d.queue = c.queue ++ [a] ∧ d.sent = c.sent ++ [a] ∧ d.received = c.received ∧
      d.capacity = c.capacity ∧ d.senderGone = c.senderGone ∧ d.receiverGone = c.receiverGone := by
  unfold push at h
  split at h
  · rename_i haccepts
    obtain rfl := Option.some.inj h
    exact ⟨haccepts, rfl, rfl, rfl, rfl, rfl, rfl⟩
  · cases h

theorem exists_push {c : Channel α} (h : c.Accepts) (a : α) : ∃ d, c.push a = some d := by
  unfold push
  exact ⟨_, dif_pos h⟩

theorem take_spec {c d : Channel α} (h : c.take = some d) :
    ∃ a, c.queue = a :: d.queue ∧ d.received = c.received ++ [a] ∧ d.sent = c.sent ∧
      d.capacity = c.capacity ∧ d.senderGone = c.senderGone ∧ d.receiverGone = c.receiverGone := by
  unfold take at h
  split at h
  · cases h
  · rename_i a rest hqueue
    obtain rfl := Option.some.inj h
    exact ⟨a, hqueue, rfl, rfl, rfl, rfl, rfl⟩

theorem exists_take {c : Channel α} (h : c.queue ≠ []) : ∃ d, c.take = some d := by
  unfold take
  split
  · rename_i hqueue
    exact absurd hqueue h
  · exact ⟨_, rfl⟩

@[simp] theorem sent_closeSender (c : Channel α) : c.closeSender.sent = c.sent := rfl

@[simp] theorem queue_closeSender (c : Channel α) : c.closeSender.queue = c.queue := rfl

@[simp] theorem received_closeSender (c : Channel α) : c.closeSender.received = c.received := rfl

@[simp] theorem senderGone_closeSender (c : Channel α) : c.closeSender.senderGone = true := rfl

@[simp] theorem receiverGone_closeSender (c : Channel α) :
    c.closeSender.receiverGone = c.receiverGone := rfl

@[simp] theorem sent_closeReceiver (c : Channel α) : c.closeReceiver.sent = c.sent := rfl

@[simp] theorem queue_closeReceiver (c : Channel α) : c.closeReceiver.queue = [] := rfl

@[simp] theorem received_closeReceiver (c : Channel α) :
    c.closeReceiver.received = c.received := rfl

@[simp] theorem senderGone_closeReceiver (c : Channel α) :
    c.closeReceiver.senderGone = c.senderGone := rfl

@[simp] theorem receiverGone_closeReceiver (c : Channel α) :
    c.closeReceiver.receiverGone = true := rfl

end Channel
