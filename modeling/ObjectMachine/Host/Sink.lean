/-
  ObjectMachine/Host/Sink.lean
  ============================
  **The output** — what programs print, up to a limit if there is one.
-/
import ObjectMachine.Bytes
import ObjectMachine.Host.Error

namespace ObjectMachine

/-- What has been written, and how many more bytes fit. -/
structure Sink where
  written : Bytes := #[]
  room : Option Nat := none

namespace Sink

/-- Writes bytes.  Those that do not fit are dropped, and then the write has failed. -/
def write (xs : List UInt8) (s : Sink) : Except HostError Unit × Sink :=
  match s.room with
  | none => (.ok (), { s with written := s.written.appendList xs })
  | some room =>
    let s := { written := s.written.appendList (xs.take room), room := some (room - xs.length) }
    if xs.length ≤ room then (.ok (), s) else (.error .shortWrite, s)

end Sink

end ObjectMachine
