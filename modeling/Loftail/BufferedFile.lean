import Loftail.Record

/-! # A file open for appending, behind a write buffer

What is written waits in the buffer until a flush, a close or a later write moves it on, and each
of these may move a part of it and fail. -/
namespace Loftail

structure BufferedFile where
  disk : Bytes
  pending : Bytes

/-- How a write goes: into the buffer; nowhere, the buffer being full and only `moved` of it making
room; or past the buffer, `taken` bytes reaching the file. -/
inductive WriteOutcome
  | buffered
  | noRoom (moved : ℕ)
  | direct (taken : ℕ)

namespace BufferedFile

def open_ (disk : Bytes) : BufferedFile := ⟨disk,[]⟩

/-- The first `k` waiting bytes reach the file. -/
def push (f : BufferedFile) (k : ℕ) : BufferedFile := ⟨f.disk++f.pending.take k,f.pending.drop k⟩

/-- `QFile::write`: how many bytes it took, -1 for none. -/
def write (f : BufferedFile) (data : Bytes) : WriteOutcome→BufferedFile×ℤ
  | .buffered => (⟨f.disk,f.pending++data⟩,data.length)
  | .noRoom moved => (f.push moved,-1)
  | .direct taken => (⟨f.disk++f.pending++data.take taken,[]⟩,if taken=0 then -1 else (data.take taken).length)

/-- `QFile::flush`: all of the buffer, or `some k` bytes of it and a failure. -/
def flush (f : BufferedFile) : Option ℕ→BufferedFile×Bool
  | none => (⟨f.disk++f.pending,[]⟩,true)
  | some k => (f.push k,false)

/-- `QFile::close` moves what it can once more and drops the rest. -/
def close (f : BufferedFile) (k : ℕ) : Bytes := (f.push k).disk

variable {f : BufferedFile} {data : Bytes}

theorem disk_push (f : BufferedFile) (k : ℕ) : f.disk<+:(f.push k).disk := List.prefix_append _ _

theorem disk_write (f : BufferedFile) (data : Bytes) (o : WriteOutcome) : f.disk<+:(f.write data o).1.disk := by
  cases o with
  | buffered => exact List.prefix_rfl
  | noRoom moved => exact disk_push f moved
  | direct taken => exact (List.prefix_append _ _).trans (List.prefix_append _ _)

theorem disk_flush (f : BufferedFile) (o : Option ℕ) : f.disk<+:(f.flush o).1.disk := by
  cases o with
  | none => exact List.prefix_append _ _
  | some k => exact disk_push f k

theorem disk_close (f : BufferedFile) (k : ℕ) : f.disk<+:f.close k := disk_push f k

/-- A write that took every byte, flushed: the file holds what it held, what waited, and the bytes. -/
theorem write_flush {o : WriteOutcome} (hw : (f.write data o).2=data.length) :
    ((f.write data o).1.flush none).1=open_ (f.disk++f.pending++data) := by
  cases o with
  | buffered => simp [write,flush,open_]
  | noRoom moved =>
    simp only [write] at hw
    omega
  | direct taken =>
    simp only [write] at hw ⊢
    have hall : data.take taken=data := by
      split at hw
      · omega
      · apply List.take_of_length_le
        rw [List.length_take] at hw
        omega
    simp [flush,open_,hall]

end BufferedFile

end Loftail
