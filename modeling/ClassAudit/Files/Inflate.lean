/-! # Compressed data

    Compressed data is a sequence of blocks. A block holds plain bytes, or symbols in a prefix code:
    a symbol is a byte, the end of the block, or the length of a piece of what has been written
    before, which the symbol for a distance follows. A code is given by the lengths of its words;
    shorter words come first, and words of one length in the order of their symbols.

    Data may be damaged or come to an early end. A damage is told by the number of bytes that have
    been looked at by then, so no byte is looked at before it is needed.
-/

namespace ClassAudit.Inflate

inductive InflateError
  /-- There is more of it than expected. -/
  | excess
  | truncated
  | damaged (offset : Nat)

/-! ### Bits -/

/-- Bytes that are read bit by bit, the lowest bit of a byte first. -/
structure Bits where
  bytes : List UInt8
  /-- The bits of those before that have not been read, as a number. -/
  pending : Nat
  /-- How many bits are pending. -/
  count : Nat
  /-- How many bytes have been looked at. -/
  offset : Nat

abbrev BitReader := StateT Bits (Except InflateError)

def damaged {α : Type} : BitReader α := do
  throw (.damaged (← get).offset)

def lookAtByte : BitReader Unit := fun s =>
  match s.bytes with
  | [] => .error .truncated
  | b :: bytes => .ok ((), ⟨bytes, s.pending + (b.toNat <<< s.count), s.count + 8, s.offset + 1⟩)

/-- Looks at bytes until some bits are pending, at most 24 of them. -/
def need (n : Nat) : BitReader Unit := do
  go 3
where
  go : Nat → BitReader Unit
    | 0 => return
    | fuel + 1 => do
      if (← get).count < n then
        lookAtByte
        go fuel

def drop (n : Nat) : BitReader Unit :=
  modify fun s => { s with pending := s.pending >>> n, count := s.count - n }

/-- A number of some bits, the lowest first. -/
def bits (n : Nat) : BitReader Nat := do
  need n
  let s ← get
  drop n
  return s.pending % (1 <<< n)

/-- Up to `n` whole bytes behind the present one, and whether they are all there. -/
def wholeBytes (n : Nat) : BitReader (List UInt8 × Bool) := do
  let s ← get
  let found := s.bytes.take n
  set (⟨s.bytes.drop n, 0, 0, s.offset + found.length⟩ : Bits)
  return (found, found.length = n)

/-! ### Codes -/

/-- A prefix code: for each length from one on, the symbols with words of that length. -/
structure PrefixCode where
  symbols : List (Array Nat)
  /-- How many bits are looked at to start with. -/
  least : Nat

namespace PrefixCode

/-- The greatest length of a word. -/
def longestWord : Nat := 15

/-- How many sequences of bits of the greatest length start with some word, given the lengths of
    words. -/
def coverage (lengths : List Nat) : Nat :=
  lengths.foldr (fun n total => (1 <<< (longestWord - n)) + total) 0

/-- The code with the given lengths, where a symbol of length zero has no word. Every sequence of
    bits has to start with a word, except that there may be no words at all, or the word of a single
    zero only. -/
def ofLengths? (lengths : List Nat) : Option PrefixCode :=
  let words := lengths.filter (0 < ·)
  if words.isEmpty || words == [1] || coverage words == 1 <<< longestWord then
    let numbered := lengths.zipIdx
    let symbolsOf (n : Nat) : List Nat :=
      numbered.filterMap fun (length, symbol) => if length = n then some symbol else none
    some ⟨(List.range longestWord).map fun n => (symbolsOf (n + 1)).toArray, words.min?.getD 0⟩
  else none

/-- The word that some bits start with: its length and symbol. -/
def find? (code : PrefixCode) (pending : Nat) : Option (Nat × Nat) :=
  go 1 0 0 pending code.symbols
where
  /-- Among the words of a length, `word` is compared with the number of those that have a
      symbol, counted from the first one. -/
  go : Nat → Nat → Nat → Nat → List (Array Nat) → Option (Nat × Nat)
    | _, _, _, _, [] => none
    | length, word, first, pending, symbols :: longer =>
      let word := 2 * word + pending % 2
      let first := 2 * first
      match if first ≤ word then symbols[word - first]? else none with
      | some symbol => some (length, symbol)
      | none => go (length + 1) word (first + symbols.size) (pending / 2) longer

/-- The symbol of the next word. Bits that have not been looked at count as zeros until the word
    turns out to be longer. -/
def read (code : PrefixCode) : BitReader Nat :=
  go (longestWord + 1) code.least
where
  go : Nat → Nat → BitReader Nat
    | 0, _ => damaged
    | fuel + 1, n => do
      need n
      let s ← get
      match code.find? s.pending with
      | none => damaged
      | some (length, symbol) =>
        if length ≤ s.count then
          drop length
          return symbol
        else go fuel length

end PrefixCode

/-- The lengths of the words for symbols in blocks that bring no code. -/
def fixedLengths : List Nat :=
  List.replicate 144 8 ++ List.replicate 112 9 ++ List.replicate 24 7 ++ List.replicate 8 8

/-- The lengths of the words for distances in blocks that bring no code. -/
def fixedDistanceLengths : List Nat :=
  List.replicate 32 5

def codeOf (lengths : List Nat) : BitReader PrefixCode :=
  match PrefixCode.ofLengths? lengths with
  | some code => return code
  | none => damaged

/-- The order in which the lengths of the code of lengths are given. -/
def lengthOrder : List Nat :=
  [16, 17, 18, 0, 8, 7, 9, 6, 10, 5, 11, 4, 12, 3, 13, 2, 14, 1, 15]

/-- Reads the lengths of words up to a number of them, from the last one. Some symbols repeat a
    length. -/
def readLengths (code : PrefixCode) (total : Nat) : Nat → List Nat → BitReader (List Nat)
  | 0, _ => damaged
  | fuel + 1, done =>
    if total ≤ done.length then return done
    else do
      match ← code.read with
      | 16 =>
        match done with
        | [] => damaged
        | last :: _ => more fuel done (3 + (← bits 2)) last
      | 17 => more fuel done (3 + (← bits 3)) 0
      | 18 => more fuel done (11 + (← bits 7)) 0
      | length => more fuel done 1 length
where
  /-- Goes on after some equal lengths. -/
  more (fuel : Nat) (done : List Nat) (n length : Nat) : BitReader (List Nat) :=
    if total < done.length + n then damaged
    else readLengths code total fuel (List.replicate n length ++ done)

def endOfBlock : Nat := 256

def readCodes : BitReader (PrefixCode × PrefixCode) := do
  need 14
  let header := (← get).pending
  let symbols := 257 + header % 32
  let distances := 1 + header / 32 % 32
  if 286 < symbols ∨ 30 < distances then damaged
  let given := 4 + header / 1024 % 16
  drop 14
  let lengths ← (List.range given).mapM fun _ => bits 3
  let ordered := lengthOrder.zip lengths
  let code ← codeOf ((List.range 19).map fun n => (ordered.lookup n).getD 0)
  let all := (← readLengths code (symbols + distances) (symbols + distances + 1) []).reverse
  let symbolCode ← codeOf (all.take symbols)
  let distanceCode ← codeOf (all.drop symbols)
  let least := max symbolCode.least (all[endOfBlock]?.getD 0)
  return ({ symbolCode with least }, distanceCode)

/-! ### Blocks -/

/-- For each symbol of a length: the least length, and how many more bits it takes. -/
def lengthTable : Array (Nat × Nat) :=
  #[(3, 0), (4, 0), (5, 0), (6, 0), (7, 0), (8, 0), (9, 0), (10, 0), (11, 1), (13, 1), (15, 1),
    (17, 1), (19, 2), (23, 2), (27, 2), (31, 2), (35, 3), (43, 3), (51, 3), (59, 3), (67, 4),
    (83, 4), (99, 4), (115, 4), (131, 5), (163, 5), (195, 5), (227, 5), (258, 0)]

/-- For each symbol of a distance: the least distance, and how many more bits it takes. -/
def distanceTable : Array (Nat × Nat) :=
  #[(1, 0), (2, 0), (3, 0), (4, 0), (5, 1), (7, 1), (9, 2), (13, 2), (17, 3), (25, 3), (33, 4),
    (49, 4), (65, 5), (97, 5), (129, 6), (193, 6), (257, 7), (385, 7), (513, 8), (769, 8),
    (1025, 9), (1537, 9), (2049, 10), (3073, 10), (4097, 11), (6145, 11), (8193, 12), (12289, 12),
    (16385, 13), (24577, 13)]

def readAmount (table : Array (Nat × Nat)) (symbol : Nat) : BitReader Nat :=
  match table[symbol]? with
  | none => damaged
  | some (least, more) => do return least + (← bits more)

/-- Appends bytes from some distance back, one by one, so that they may overlap. -/
def copyBack (distance : Nat) : Nat → Array UInt8 → Array UInt8
  | 0, done => done
  | n + 1, done => copyBack distance n (done.push (done[done.size - distance]?.getD 0))

/-- What has been written, if it is not too much. -/
def limited (limit : Nat) (done : Array UInt8) : BitReader (Array UInt8) :=
  if limit < done.size then throw .excess else return done

def readSymbols (limit : Nat) (symbols distances : PrefixCode) :
    Nat → Array UInt8 → BitReader (Array UInt8)
  | 0, _ => damaged
  | fuel + 1, done => do
    let symbol ← symbols.read
    if symbol < endOfBlock then
      readSymbols limit symbols distances fuel (← limited limit (done.push (.ofNat symbol)))
    else if symbol = endOfBlock then return done
    else
      let length ← readAmount lengthTable (symbol - 257)
      let distance ← readAmount distanceTable (← distances.read)
      if done.size < distance then damaged
      readSymbols limit symbols distances fuel (← limited limit (copyBack distance length done))

/-- Reads the plain bytes of a block behind their number and its complement. -/
def readPlain (limit : Nat) (done : Array UInt8) : BitReader (Array UInt8) := do
  let (header, complete) ← wholeBytes 4
  if !complete then throw .truncated
  match header.map UInt8.toNat with
  | [a, b, c, d] =>
    let size := a + 256 * b
    if c + 256 * d ≠ 65535 - size then damaged
    let (bytes, complete) ← wholeBytes size
    let done ← limited limit (done ++ bytes.toArray)
    if complete then return done else throw .truncated
  | _ => damaged

def readBlock (limit fuel kind : Nat) (done : Array UInt8) : BitReader (Array UInt8) := do
  match kind with
  | 0 => readPlain limit done
  | 1 =>
    readSymbols limit (← codeOf fixedLengths) (← codeOf fixedDistanceLengths) fuel done
  | 2 =>
    let (symbols, distances) ← readCodes
    readSymbols limit symbols distances fuel done
  | _ => damaged

def readBlocks (limit fuel : Nat) : Nat → Array UInt8 → BitReader (Array UInt8)
  | 0, _ => damaged
  | blocks + 1, done => do
    let header ← bits 3
    let done ← readBlock limit fuel (header / 2) done
    if header % 2 = 1 then return done else readBlocks limit fuel blocks done

/-- The data that was compressed, of which not more than a number of bytes is expected. Each symbol
    and each block takes at least a bit. -/
def decompress (limit : Nat) (bytes : List UInt8) : Except InflateError (List UInt8) := do
  let fuel := 8 * bytes.length + 1
  let (done, _) ← (readBlocks limit fuel fuel #[]).run ⟨bytes, 0, 0, 0⟩
  return done.toList

end ClassAudit.Inflate
