/-!
# Sinks

A sink takes the bytes that a program prints. It may have room for only so many: a write that does
not fit is cut short and fails, and what fitted is kept. A sink may also fail when it is flushed.
-/

namespace Lox

/-- Why a sink fails. -/
inductive SinkFault where
  | full
  | flushFailed
  deriving DecidableEq, Repr

def SinkFault.message : SinkFault → String
  | full => "sink full"
  | flushFailed => "flush failed"

structure Sink where
  written : ByteArray
  /-- How many bytes still fit, if not any number. -/
  room? : Option Nat
  flushFails : Bool

namespace Sink

/-- A sink that never fails. -/
def unbounded : Sink :=
  ⟨.empty, none, false⟩

/-- The sink after a write, and whether all of it fitted. -/
def write (s : Sink) (bytes : ByteArray) : Bool × Sink :=
  match s.room? with
  | none => (true, { s with written := s.written ++ bytes })
  | some room =>
    let taken := { s with
      written := s.written ++ bytes.extract 0 room
      room? := some (room - bytes.size) }
    (bytes.size ≤ room, taken)

/-- What was written, and the sink without it. -/
def drain (s : Sink) : ByteArray × Sink :=
  (s.written, { s with written := .empty })

end Sink

/-- The text that some bytes spell, where at most the last character is cut short: what is left of
it reads as U+FFFD. -/
def readableText (bytes : ByteArray) : String :=
  let cut (n : Nat) : Option String :=
    (String.fromUTF8? (bytes.extract 0 (bytes.size - n))).map fun s =>
      if n = 0 then s else s.push '\uFFFD'
  ([0, 1, 2, 3].findSome? cut).getD ""

end Lox
