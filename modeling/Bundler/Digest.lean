import Bundler.Text.Utf8

/-!
# BLAKE3 fingerprints

The 256-bit BLAKE3 digest of a list of bytes. The input is cut into chunks of 1024 bytes and each
chunk into blocks of 64; chunks are joined in pairs, level by level, an odd one at the end of a
level moving up unchanged, until two are left for the root.
-/

namespace Bundler

namespace Digest

/-- Eight words: a chaining value. -/
abbrev Words := Array UInt32

def initial : Words :=
  #[0x6A09E667, 0xBB67AE85, 0x3C6EF372, 0xA54FF53A, 0x510E527F, 0x9B05688C, 0x1F83D9AB, 0x5BE0CD19]

def permutation : Array Nat := #[2, 6, 3, 10, 7, 0, 4, 13, 1, 11, 12, 5, 9, 14, 15, 8]

def chunkStart : UInt32 := 1
def chunkEnd : UInt32 := 2
def parent : UInt32 := 4
def root : UInt32 := 8

def rotateRight (x : UInt32) (n : UInt32) : UInt32 := (x >>> n) ||| (x <<< (32 - n))

/-- Mixes two message words into a column or diagonal of the state. -/
def mix (s : Words) (a b c d : Nat) (x y : UInt32) : Words :=
  let va := s.getD a 0 + s.getD b 0 + x
  let vd := rotateRight (s.getD d 0 ^^^ va) 16
  let vc := s.getD c 0 + vd
  let vb := rotateRight (s.getD b 0 ^^^ vc) 12
  let va := va + vb + y
  let vd := rotateRight (vd ^^^ va) 8
  let vc := vc + vd
  let vb := rotateRight (vb ^^^ vc) 7
  (((s.set! a va).set! b vb).set! c vc).set! d vd

def mixRound (s m : Words) : Words :=
  let s := mix s 0 4 8 12 (m.getD 0 0) (m.getD 1 0)
  let s := mix s 1 5 9 13 (m.getD 2 0) (m.getD 3 0)
  let s := mix s 2 6 10 14 (m.getD 4 0) (m.getD 5 0)
  let s := mix s 3 7 11 15 (m.getD 6 0) (m.getD 7 0)
  let s := mix s 0 5 10 15 (m.getD 8 0) (m.getD 9 0)
  let s := mix s 1 6 11 12 (m.getD 10 0) (m.getD 11 0)
  let s := mix s 2 7 8 13 (m.getD 12 0) (m.getD 13 0)
  mix s 3 4 9 14 (m.getD 14 0) (m.getD 15 0)

def permute (m : Words) : Words := permutation.map fun i => m.getD i 0

/-- `n` rounds, with the message permuted between them. -/
def rounds : Nat → Words → Words → Words
  | 0, s, _ => s
  | n + 1, s, m => rounds n (mixRound s m) (permute m)

/-- The chaining value after one block. -/
def compress (chain block : Words) (counter : Nat) (length flags : UInt32) : Words :=
  let start := chain ++ initial.extract 0 4 ++
    #[UInt32.ofNat counter, UInt32.ofNat (counter / 4294967296), length, flags]
  let s := rounds 7 start block
  (Array.range 8).map fun i => s.getD i 0 ^^^ s.getD (i + 8) 0

/-- The first `n` words of bytes, least significant byte first, with zeros behind the end. -/
def words : Nat → Bytes → List UInt32
  | 0, _ => []
  | n + 1, a :: b :: c :: d :: rest =>
    (a.toUInt32 ||| (b.toUInt32 <<< 8) ||| (c.toUInt32 <<< 16) ||| (d.toUInt32 <<< 24)) ::
      words n rest
  | n + 1, rest =>
    (((rest.getD 0 0).toUInt32) ||| ((rest.getD 1 0).toUInt32 <<< 8) |||
      ((rest.getD 2 0).toUInt32 <<< 16)) :: words n []

/-- Cuts `bytes` into runs of `size`, of which the last may be shorter; no bytes are one empty
run. -/
def runs (size : Nat) (bytes : Bytes) : List Bytes :=
  let rest := bytes.drop size
  if rest.isEmpty ∨ size = 0 then [bytes] else bytes.take size :: runs size rest
termination_by bytes.length
decreasing_by
  rename_i h
  simp only [not_or, List.isEmpty_iff, List.drop_eq_nil_iff, rest] at h
  simp only [List.length_drop]
  omega

/-- Chains the blocks of a chunk; `flags` go to the last block besides its own. -/
def chainBlocks (counter : Nat) (flags : UInt32) : Words → UInt32 → List Bytes → Words
  | chain, _, [] => chain
  | chain, start, [b] =>
    compress chain (words 16 b).toArray counter (UInt32.ofNat b.length)
      (start ||| chunkEnd ||| flags)
  | chain, start, b :: bs =>
    chainBlocks counter flags (compress chain (words 16 b).toArray counter 64 start) 0 bs

def chunk (counter : Nat) (flags : UInt32) (bytes : Bytes) : Words :=
  chainBlocks counter flags initial chunkStart (runs 64 bytes)

def join (flags : UInt32) (left right : Words) : Words :=
  compress initial (left ++ right) 0 64 (parent ||| flags)

/-- Joins neighbours in pairs. -/
def level : List Words → List Words
  | a :: b :: rest => join 0 a b :: level rest
  | rest => rest

theorem length_level (nodes : List Words) : (level nodes).length ≤ nodes.length := by
  fun_induction level nodes with
  | case1 a b rest ih => simp only [List.length_cons]; omega
  | case2 => exact Nat.le_refl _

/-- Joins levels until two nodes are left, and those to the root. -/
def rootOf : List Words → Words
  | a :: b :: c :: rest => rootOf (level (a :: b :: c :: rest))
  | [a, b] => join root a b
  | [a] => a
  | [] => initial
termination_by nodes => nodes.length
decreasing_by
  have := length_level (c :: rest)
  simp only [level, List.length_cons] at this ⊢
  omega

end Digest

/-- The digest of the bytes of a module. -/
structure Fingerprint where
  words : Array UInt32
deriving DecidableEq

namespace Fingerprint

def ofBytes (bytes : Bytes) : Fingerprint :=
  match Digest.runs 1024 bytes with
  | [only] => ⟨Digest.chunk 0 Digest.root only⟩
  | chunks => ⟨Digest.rootOf (chunks.mapIdx fun i c => Digest.chunk i 0 c)⟩

def hexDigit (n : Nat) : Char := "0123456789abcdef".toList.getD n '0'

def hexByte (n : Nat) : List Char := [hexDigit (n / 16), hexDigit (n % 16)]

/-- The 64 hexadecimal digits, byte by byte. -/
def toHex (f : Fingerprint) : String :=
  String.ofList (f.words.toList.flatMap fun w =>
    hexByte (w.toNat % 256) ++ hexByte (w.toNat / 256 % 256) ++ hexByte (w.toNat / 65536 % 256) ++
      hexByte (w.toNat / 16777216))

/-- The first `n` hexadecimal digits. -/
def short (f : Fingerprint) (n : Nat) : String := String.ofList (f.toHex.toList.take n)

/-- The form for a reader: the first twelve digits. -/
def describe (f : Fingerprint) : String := "Fingerprint(" ++ f.short 12 ++ ")"

end Fingerprint

end Bundler
