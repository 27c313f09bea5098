import Mathlib.Data.List.Basic

/-!
# A file behind a buffer

What is put into a stream waits in a buffer, and leaves it for the file from the front on,
whenever and as far as the stream chooses. When the stream is closed the rest follows. Whatever
the stream chooses, nothing is lost or put out of order on the way (`contents_put`), so the file
is at any time a beginning of what was put into the stream (`prefix_contents`).
-/

namespace Buffered

variable {β : Type}

/-- The file, and what waits to be written to it. -/
structure Stream (β : Type) where
  file : List β := []
  buffer : List β := []

/-- All that was put into the stream. -/
def Stream.contents (s : Stream β) : List β := s.file ++ s.buffer

/-- Some items are put behind the buffer, and the first `moved` of it leave for the file. -/
def Stream.put (s : Stream β) (items : List β) (moved : Nat) : Stream β where
  file := s.file ++ (s.buffer ++ items).take moved
  buffer := (s.buffer ++ items).drop moved

/-- All that is in the buffer leaves for the file. -/
def Stream.close (s : Stream β) : Stream β where
  file := s.file ++ s.buffer
  buffer := []

@[simp] theorem contents_put (s : Stream β) (items : List β) (moved : Nat) :
    (s.put items moved).contents = s.contents ++ items := by
  unfold Stream.contents Stream.put
  rw [List.append_assoc, List.take_append_drop, List.append_assoc]

@[simp] theorem file_close (s : Stream β) : s.close.file = s.contents := rfl

theorem prefix_contents (s : Stream β) : s.file <+: s.contents := List.prefix_append _ _

end Buffered
