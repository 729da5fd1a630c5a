import GrammarLayout.Fault
import GrammarLayout.Layout.Writer

/-!
# Sinks

A sink takes bytes up to a limit, if it has one, and at one call perhaps only a few of them. Bytes
are handed over call by call until all are taken; bytes that do not fit are taken as far as they
fit, and then the sink is closed.
-/

namespace GrammarLayout

/-- A sink with what it has taken. -/
structure Sink where
  /-- How many bytes it takes in all; all there are if absent. -/
  limit : Option Nat := none
  /-- How many bytes it takes at one call; all there are if absent. -/
  portion : Option Nat := none
  /-- Whether flushing it fails. -/
  failsFlush : Bool := false
  /-- The bytes taken so far. -/
  written : ByteArray := .empty
  /-- A call that may take anything takes something. -/
  portion_pos : ∀ n ∈ portion, 0 < n := by simp

namespace Sink

/-- How many of `n` more bytes the sink has room for. -/
def room (s : Sink) (n : Nat) : Nat := min n ((s.limit.map (· - s.written.size)).getD n)

/-- How many of `n` more bytes the sink takes at one call. -/
def taken (s : Sink) (n : Nat) : Nat := min (s.room n) (s.portion.getD n)

theorem taken_le (s : Sink) (n : Nat) : s.taken n ≤ n :=
  Nat.le_trans (Nat.min_le_left _ _) (Nat.min_le_left _ _)

/-- Hands bytes over, call by call, until all are taken or there is no more room. -/
def writeBytes (s : Sink) (bytes : ByteArray) : Sink × Option Fault :=
  let n := s.taken bytes.size
  if bytes.size = 0 then (s, none)
  else if n = 0 then (s, some .closed)
  else
    writeBytes { s with written := s.written ++ bytes.extract 0 n } (bytes.extract n bytes.size)
termination_by bytes.size
decreasing_by
  have := s.taken_le bytes.size
  simp only [ByteArray.size_extract]
  omega

/-- Hands a chunk over. -/
def write (s : Sink) (chunk : String) : Sink × Option Fault := s.writeBytes chunk.toUTF8

/-- Hands chunks over until one is refused. -/
def writeAll (s : Sink) : List String → Sink × Option Fault
  | [] => (s, none)
  | chunk :: chunks =>
    match s.write chunk with
    | (s, none) => s.writeAll chunks
    | (s, some fault) => (s, some fault)

/-- Flushes the sink. -/
def flush (s : Sink) : Option Fault := if s.failsFlush then some .flushFailed else none

/-- Hands chunks over and flushes the sink if it took them all. -/
def deliver (s : Sink) (chunks : List String) : Sink × Option Fault :=
  match s.writeAll chunks with
  | (s, none) => (s, s.flush)
  | (s, some fault) => (s, some fault)

/-- Carries out a call of the writer: gives the writer and the sink afterwards, and the fault if the
sink refused. -/
def perform (s : Sink) (e : Writer.Effect) : Writer × Sink × Option Fault :=
  match s.writeAll e.chunks with
  | (s, none) => (e.taken, s, none)
  | (s, some fault) => (e.refused, s, some fault)

end Sink

end GrammarLayout
