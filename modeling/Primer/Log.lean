/-!
# Logs of bounded total size

A `Log` keeps every item pushed to it as long as the sizes of the kept items stay within a limit.
An item that would go over the limit is refused and leaves the log as it was; a later, smaller item
may still fit. The newest item stands first in the representation, and `items` lists them oldest
first.
-/

namespace Primer

universe u

/-- What the items of a list cost together when `charge` tells what each costs. -/
def total {α : Type u} (charge : α → Nat) : List α → Nat
  | [] => 0
  | item :: rest => charge item + total charge rest

@[simp] theorem total_nil {α : Type u} (charge : α → Nat) : total charge [] = 0 := rfl

@[simp] theorem total_cons {α : Type u} (charge : α → Nat) (item : α) (rest : List α) :
    total charge (item :: rest) = charge item + total charge rest := rfl

theorem total_append {α : Type u} (charge : α → Nat) (front back : List α) :
    total charge (front ++ back) = total charge front + total charge back := by
  induction front with
  | nil => simp
  | cons item rest ih => simp [ih, Nat.add_assoc]

theorem total_reverse {α : Type u} (charge : α → Nat) (items : List α) :
    total charge items.reverse = total charge items := by
  induction items with
  | nil => rfl
  | cons item rest ih => simp [total_append, ih, Nat.add_comm]

/-- Values that take up a known amount of room in a log. -/
class Sized (α : Type u) where
  /-- The room one value takes up. -/
  size : α → Nat

/-- A history of items whose sizes sum up to at most `limit`. -/
structure Log (α : Type u) where
  limit : Nat
  used : Nat := 0
  newestFirst : List α := []
deriving Repr

namespace Log

/-- Why an item was refused: `used` of `limit` was taken, and the item needed `requested`. -/
structure Full where
  used : Nat
  requested : Nat
  limit : Nat
deriving Repr, DecidableEq

/-- The text shown for a refused item. -/
def Full.message (full : Full) : String :=
  "Snapshot memory limit exceeded: " ++ toString full.used ++ " + " ++ toString full.requested ++
    " > " ++ toString full.limit

variable {α : Type u}

/-- The log without items. -/
def empty (limit : Nat) : Log α := { limit }

/-- Keep an item if it fits into the room that is left. -/
def push [Sized α] (log : Log α) (item : α) : Except Full (Log α) :=
  if log.used + Sized.size item ≤ log.limit then
    .ok { log with used := log.used + Sized.size item, newestFirst := item :: log.newestFirst }
  else
    .error ⟨log.used, Sized.size item, log.limit⟩

/-- The kept items, oldest first. -/
def items (log : Log α) : List α := log.newestFirst.reverse

/-- How many items are kept. -/
def length (log : Log α) : Nat := log.newestFirst.length

/-- Whether nothing is kept. -/
def isEmpty (log : Log α) : Bool := log.newestFirst.isEmpty

/-- The item at a position, counted from the oldest. -/
def get? (log : Log α) (index : Nat) : Option α := log.items[index]?

/-- The newest item. -/
def last? (log : Log α) : Option α := log.newestFirst.head?

/-! ## What a push does -/

@[simp] theorem items_empty (limit : Nat) : (empty limit : Log α).items = [] := rfl

/-- A push succeeds exactly if the item fits, and then puts it at the end. -/
theorem push_eq_ok_iff [Sized α] {log after : Log α} {item : α} :
    log.push item = .ok after ↔
      log.used + Sized.size item ≤ log.limit ∧ after.limit = log.limit ∧
        after.used = log.used + Sized.size item ∧
        after.newestFirst = item :: log.newestFirst := by
  obtain ⟨limit, used, kept⟩ := after
  unfold push
  split <;> rename_i fits
  · simp only [fits, true_and, Except.ok.injEq, Log.mk.injEq]
    exact ⟨fun ⟨a, b, c⟩ => ⟨a.symm, b.symm, c.symm⟩, fun ⟨a, b, c⟩ => ⟨a.symm, b.symm, c.symm⟩⟩
  · simp [fits]

/-- A push is refused exactly if the item does not fit. -/
theorem push_eq_error_iff [Sized α] {log : Log α} {item : α} {full : Full} :
    log.push item = .error full ↔
      log.limit < log.used + Sized.size item ∧ full = ⟨log.used, Sized.size item, log.limit⟩ := by
  unfold push
  split <;> rename_i fits
  · simp [Nat.not_lt.2 fits]
  · simp [Nat.lt_of_not_le fits, eq_comm]

/-- The items after a push are the old ones and the new one. -/
theorem items_push [Sized α] {log after : Log α} {item : α} (pushed : log.push item = .ok after) :
    after.items = log.items ++ [item] := by
  simp [items, (push_eq_ok_iff.1 pushed).2.2.2]

theorem length_eq (log : Log α) : log.length = log.items.length := by
  simp [length, items]

theorem last?_eq (log : Log α) : log.last? = log.items.getLast? := by
  simp [last?, items]

end Log

end Primer
