/-
Standard input in two layers (`client/main.cpp`, `stdin_empty` and `main`).

`stdin_empty` asks the descriptor, with `read`, and gives the byte back to
the stream, with `ungetc`. Only the stream knows of the bytes that were
given back, the last one first; the descriptor has lost them. `main` asks
twice, before it runs `func` and before it reads what there is for the local
compiler, and that last read goes through the stream.

`errno` is not reset by a call that succeeds, so what `stdin_empty` finds in
it is a parameter of each call, as is the byte its buffer happens to hold.
-/
import Distplusplus.Client.Answer

namespace Distplusplus.Client

open Lib Common

-- ============================================================= environment

def EAGAIN : Nat := 11

def EWOULDBLOCK : Nat := EAGAIN

/-- What the C library leaves open: the sign of `char`, and how many bytes a
stream takes back, which is one at least. -/
structure Platform where
  charSigned : Bool
  pushback : Nat
  oneByte : 0 < pushback

/-- Standard input: the bytes the descriptor has and whether they are all
there will be, what `read` fails with if it cannot be read, and the bytes
given back to the stream, the last one first. -/
structure Stdin where
  pending : Str
  ended : Bool
  broken : Option Nat
  pushed : Str
  deriving DecidableEq, Repr

/-- What a call of `stdin_empty` finds: `errno`, and its buffer. -/
structure Found where
  errno : Nat
  buf : Char

/-- What `read` returns for one byte. -/
inductive ReadResult where
  | byte (c : Char)
  | eof
  | failed (errno : Nat)
  deriving DecidableEq, Repr

/-- `read` of one byte from a descriptor that does not block. -/
def Stdin.read (s : Stdin) : ReadResult × Stdin :=
  match s.broken, s.pending with
  | some errno, _ => (.failed errno, s)
  | none, c :: pending => (.byte c, { s with pending := pending })
  | none, [] => if s.ended then (.eof, s) else (.failed EAGAIN, s)

/-- The byte `ungetc` takes for end of file. -/
def Platform.isEOF (P : Platform) (c : Char) : Bool :=
  P.charSigned && decide (c = Char.ofNat 0xFF)

/-- `ungetc`, whose result nobody looks at. -/
def Stdin.ungetc (P : Platform) (c : Char) (s : Stdin) : Stdin :=
  if P.isEOF c then s
  else if s.pushed.length < P.pushback then
    { s with pushed := c :: s.pushed }
  else s

/-- The stream to its end. -/
def Stdin.rest (s : Stdin) : Str := s.pushed ++ s.pending

-- ================================================================ programs

/-- `stdin_empty`. -/
def stdinEmpty (P : Platform) (found : Found) (s : Stdin) : Bool × Stdin :=
  match s.read with
  | (.failed errno, s) =>
      if errno = EAGAIN ∨ errno = EWOULDBLOCK then (true, s)
      else (false, s.ungetc P found.buf)
  | (.eof, s) => (true, s)
  | (.byte c, s) =>
      if found.errno = EAGAIN ∨ found.errno = EWOULDBLOCK then (true, s)
      else (false, s.ungetc P c)

/-- What the handler reads for the local compiler. -/
def fallbackInput (P : Platform) (found : Found) (s : Stdin) : Str :=
  match stdinEmpty P found s with
  | (true, _) => []
  | (false, s) => s.rest

/-- `main`, given how `func` ends if it is called. -/
def main (P : Platform) (m : Local) (fallback : Bool) (first second : Found)
    (func : Except Thrown Remote) (argv : List Arg) (s : Stdin) : Ending :=
  match stdinEmpty P first s with
  | (true, s) =>
      mainEnd m fallback (fallbackInput P second s) argv func
  | (false, s) =>
      mainEnd m fallback (fallbackInput P second s) argv
        (.error .fallbackSignal)

end Distplusplus.Client
