/-!
# Logs

A log is a list that grows at its end.  It is kept backwards beside its length, so that
adding to it costs no more than what is added.
-/

namespace Stencil

structure Log (α : Type) where
  backwards : List α := []
  size : Nat := 0
  size_eq : size = backwards.length := by rfl
  deriving DecidableEq, Repr

namespace Log

variable {α : Type}

def empty : Log α := {}

def toList (log : Log α) : List α :=
  log.backwards.reverse

def append (log : Log α) (items : List α) : Log α where
  backwards := items.reverse ++ log.backwards
  size := log.size + items.length
  size_eq := by
    rw [List.length_append, List.length_reverse, log.size_eq, Nat.add_comm]

@[simp]
theorem toList_empty : (empty : Log α).toList = [] := rfl

@[simp]
theorem toList_append (log : Log α) (items : List α) :
    (log.append items).toList = log.toList ++ items := by
  simp [toList, append]

theorem size_eq_length (log : Log α) : log.size = log.toList.length := by
  rw [log.size_eq, toList, List.length_reverse]

end Log
end Stencil
