/-
Compression of file contents (`common/compression_helper.cpp`).

`CompressionType` is the open proto3 enum: any 32-bit value can arrive, two
are named. The zstd library is not part of the repository, so it is a
parameter: the two calls the helper makes, and `none` for a build without
it (`DISTPLUSPLUS_WITH_ZSTD` undefined).
-/
import Distplusplus.Lib.Numeral
import Distplusplus.Lib.Path

namespace Distplusplus.Common

open Lib

/-- The standard exceptions the code throws or lets through, with the text
of `what()` where the code makes it. -/
inductive Exception where
  | iosFailure (what : Str)
  | invalidArgument (what : Str)
  | runtimeError (what : Str)
  | filesystemError (errno : Nat)
  | processError (what : Str)
  deriving DecidableEq, Repr

/-- `distplusplus::CompressionType`. -/
abbrev CompressionType := Int32

namespace CompressionType

def NONE : CompressionType := 0

def zstd : CompressionType := 1

end CompressionType

/-- `std::to_string` of an integer. -/
def toDecimal (n : Int) : Str := (toString n).toList

/-- What `std::to_string` writes denotes the number it was given. -/
theorem integer_toDecimal (n : Int) : integer (toDecimal n) = some n := by
  cases n with
  | ofNat m => exact integer_of_natural (natural_repr m)
  | negSucc m =>
      have hneg : toDecimal (.negSucc m) = '-' :: (m + 1).repr.toList := by
        show ("-" ++ (m + 1).repr).toList = _
        rw [String.toList_append]
        rfl
      rw [hneg]
      show (natural (m + 1).repr.toList).map _ = _
      rw [natural_repr]
      rfl

/-- `std::to_string` gives different numbers different texts. -/
theorem toDecimal_injective : Function.Injective toDecimal := by
  intro m n h
  have hm := integer_toDecimal m
  rw [h, integer_toDecimal n] at hm
  exact (Option.some.inj hm).symm

/-- The zstd library as `boost::iostreams` wraps it. -/
structure Zstd where
  compress : UInt32 → Str → Except Exception Str
  decompress : Str → Except Exception Str

/-- `Compressor::Compressor`; the result is `data()`. The level is narrowed
to 32 bits for the library. -/
def compressor (lib : Option Zstd) (compressionType : CompressionType)
    (compressionLevel : Int64) (input : Str) : Except Exception Str :=
  if compressionType = CompressionType.NONE then .ok input
  else if compressionType = CompressionType.zstd then
    match lib with
    | some z => z.compress compressionLevel.toUInt64.toUInt32 input
    | none => .error (.runtimeError
        "attempted to use zstd but built without zstd support".toList)
  else .error (.invalidArgument
    ("encountered unknown CompressionType enum value ".toList ++
      toDecimal compressionType.toInt ++ " in compressor".toList))

/-- `Decompressor::Decompressor`; the result is `data()`. -/
def decompressor (lib : Option Zstd) (compressionType : CompressionType)
    (input : Str) : Except Exception Str :=
  if compressionType = CompressionType.NONE then .ok input
  else if compressionType = CompressionType.zstd then
    match lib with
    | some z => z.decompress input
    | none => .error (.runtimeError
        "attempted to use zstd but built without zstd support".toList)
  else .error (.invalidArgument
    ("encountered unknown CompressionType enum value ".toList ++
      toDecimal compressionType.toInt ++ " in decompressor".toList))

/-- `CompressorFactory`. -/
structure CompressorFactory where
  compressionType : CompressionType
  compressionLevel : Int64

end Distplusplus.Common
