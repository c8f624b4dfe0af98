import SnippetCatalog.Text.Utf8

/-!
Where output goes. A sink takes so many bytes and fails at the next one, or takes everything.
-/

namespace SnippetCatalog

structure Sink where
  /-- The bytes still taken; without a number, all are. -/
  room : Option Nat
  deriving DecidableEq, Repr

namespace Sink

def unlimited : Sink := ⟨none⟩

def fits (s : Sink) (b : Bytes) : Bool :=
  match s.room with
  | none => true
  | some n => b.length ≤ n

def cut (s : Sink) (b : Bytes) : Bytes :=
  match s.room with
  | none => b
  | some n => b.take n

def after (s : Sink) (b : Bytes) : Sink := ⟨s.room.map (· - b.length)⟩

def write (s : Sink) (text : String) : Bytes × Bool :=
  (s.cut (Utf8.encode text), s.fits (Utf8.encode text))

end Sink
end SnippetCatalog
