import JsonTree.Byte

/-!
The length of a leading run of whitespace, one byte at a time and sixteen bytes at a time. The second
tests all bytes of a chunk in one word: a lane has its high bit set where the byte in it is
whitespace, so the first lane without it is the end of the run.
-/
namespace JsonTree.Whitespace

def run (bytes : List UInt8) : Nat := (bytes.takeWhile Byte.isWhitespace).length

def lanes : Nat := 16

def littleEndian (bytes : List UInt8) : Nat := bytes.foldr (fun b n => b.toNat + 256 * n) 0

/-- The word with these bytes in its lanes, the first one lowest. -/
def word (bytes : List UInt8) : BitVec 128 := BitVec.ofNat 128 (littleEndian bytes)

def splat (b : UInt8) : BitVec 128 := word (List.replicate lanes b)

def high : BitVec 128 := splat 0x80

/-- High bits of the lanes that hold whitespace, where no lane reaches 0x80. A lane of at most 0x7F
plus one of these constants stays below 0x100, so no carry leaves a lane. -/
def whitespaceLanes (w : BitVec 128) : BitVec 128 :=
  let inControlRange := (w + splat (0x80 - 0x09)) &&& ~~~(w + splat (0x80 - 0x0E))
  let notSpace := (w ^^^ splat 0x20) + splat 0x7F
  (inControlRange ||| ~~~notSpace) &&& high

def trailingZeros (w : BitVec 128) : Nat := (List.range 128).findIdx w.getLsbD

/-- Chunk by chunk from the front. A chunk with a byte of 0x80 or more, and the last few bytes, are
left to the plain count. -/
def chunkRun (bytes : List UInt8) (skipped : Nat) : Nat :=
  let chunk := bytes.take lanes
  if _ : chunk.length < lanes then skipped + run bytes
  else if word chunk &&& high ≠ 0 then skipped + run chunk
  else
    let found := whitespaceLanes (word chunk)
    if found ≠ high then skipped + trailingZeros (~~~found &&& high) / 8
    else chunkRun (bytes.drop lanes) (skipped + lanes)
termination_by bytes.length
decreasing_by
  have short : ¬ chunk.length < lanes := by assumption
  have width : lanes = 16 := rfl
  simp only [chunk, List.length_take] at short
  simp only [List.length_drop]
  omega

/-- Most runs are empty or short, so the first byte is looked at alone. -/
def wideRun (bytes : List UInt8) : Nat :=
  match bytes with
  | [] => 0
  | b :: _ => if Byte.isWhitespace b then chunkRun bytes 0 else 0

end JsonTree.Whitespace
