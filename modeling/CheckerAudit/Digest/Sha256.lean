/-!
SHA-256 on byte strings. The sizes are in the types: a state is eight words, a block sixteen, so
a digest has thirty-two bytes whatever the message.
-/
namespace CheckerAudit.Digest.Sha256

/-- The first thirty-two bits of the fractional parts of the cube roots of the first sixty-four
primes. -/
def roundConstants : Vector UInt32 64 :=
  #v[1116352408, 1899447441, 3049323471, 3921009573, 961987163, 1508970993, 2453635748, 2870763221,
    3624381080, 310598401, 607225278, 1426881987, 1925078388, 2162078206, 2614888103, 3248222580,
    3835390401, 4022224774, 264347078, 604807628, 770255983, 1249150122, 1555081692, 1996064986,
    2554220882, 2821834349, 2952996808, 3210313671, 3336571891, 3584528711, 113926993, 338241895,
    666307205, 773529912, 1294757372, 1396182291, 1695183700, 1986661051, 2177026350, 2456956037,
    2730485921, 2820302411, 3259730800, 3345764771, 3516065817, 3600352804, 4094571909, 275423344,
    430227734, 506948616, 659060556, 883997877, 958139571, 1322822218, 1537002063, 1747873779,
    1955562222, 2024104815, 2227730452, 2361852424, 2428436474, 2756734187, 3204031479, 3329325298]

/-- The eight words that the blocks of a message are worked into. -/
abbrev State := Vector UInt32 8

/-- Sixteen words of a message. -/
abbrev Block := Vector UInt32 16

/-- The first thirty-two bits of the fractional parts of the square roots of the first eight
primes. -/
def initial : State :=
  #v[1779033703, 3144134277, 1013904242, 2773480762, 1359893119, 2600822924, 528734635, 1541459225]

/-- Rotates a word to the right. -/
def rotate (x : UInt32) (n : UInt32) : UInt32 :=
  (x >>> n) ||| (x <<< (32 - n))

/-- The message schedule, word by word: each later word mixes four earlier ones. -/
def schedule (block : Block) : Array UInt32 :=
  (List.range 48).foldl (fun w i =>
    let w2 := w.getD (i + 14) 0
    let w15 := w.getD (i + 1) 0
    let s0 := rotate w15 7 ^^^ rotate w15 18 ^^^ (w15 >>> 3)
    let s1 := rotate w2 17 ^^^ rotate w2 19 ^^^ (w2 >>> 10)
    w.push (w.getD i 0 + s0 + w.getD (i + 9) 0 + s1)) block.toArray

/-- One round over the eight working words. -/
def round (v : State) (constant word : UInt32) : State :=
  let a := v[0]
  let b := v[1]
  let c := v[2]
  let e := v[4]
  let big1 := rotate e 6 ^^^ rotate e 11 ^^^ rotate e 25
  let choice := (e &&& v[5]) ^^^ (~~~ e &&& v[6])
  let t1 := v[7] + big1 + choice + constant + word
  let big0 := rotate a 2 ^^^ rotate a 13 ^^^ rotate a 22
  let majority := (a &&& b) ^^^ (a &&& c) ^^^ (b &&& c)
  #v[t1 + (big0 + majority), a, b, c, v[3] + t1, e, v[5], v[6]]

/-- Sixty-four rounds, and the sum with the state before them. -/
def compress (state : State) (block : Block) : State :=
  let final := (roundConstants.toArray.zip (schedule block)).foldl
    (fun v (constant, word) => round v constant word) state
  state.zipWith (· + ·) final

/-- The eight bytes of a 64-bit length, the highest first. -/
def lengthBytes (bits : UInt64) : List UInt8 :=
  [(bits >>> 56).toUInt8, (bits >>> 48).toUInt8, (bits >>> 40).toUInt8, (bits >>> 32).toUInt8,
    (bits >>> 24).toUInt8, (bits >>> 16).toUInt8, (bits >>> 8).toUInt8, bits.toUInt8]

/-- A message, a one bit, zeros, and the length in bits: a multiple of sixty-four bytes. -/
def pad (message : List UInt8) : List UInt8 :=
  let size := message.length
  message ++ 0x80 :: List.replicate ((119 - size % 64) % 64) 0 ++ lengthBytes (UInt64.ofNat (8 * size))

/-- A big-endian word. -/
def word (bytes : Array UInt8) (i : Nat) : UInt32 :=
  ((bytes.getD i 0).toUInt32 <<< 24) ||| ((bytes.getD (i + 1) 0).toUInt32 <<< 16) |||
    ((bytes.getD (i + 2) 0).toUInt32 <<< 8) ||| (bytes.getD (i + 3) 0).toUInt32

/-- The block that begins at a byte. -/
def block (bytes : Array UInt8) (start : Nat) : Block :=
  Vector.ofFn fun i => word bytes (start + 4 * i)

/-- The state after all blocks of a message. -/
def hash (message : List UInt8) : State :=
  let bytes := (pad message).toArray
  (List.range (bytes.size / 64)).foldl (fun s i => compress s (block bytes (64 * i))) initial

/-- The four bytes of a word, the highest first. -/
def wordBytes (w : UInt32) : List UInt8 :=
  [(w >>> 24).toUInt8, (w >>> 16).toUInt8, (w >>> 8).toUInt8, w.toUInt8]

/-- The digest of a message. -/
def digest (message : List UInt8) : List UInt8 :=
  (hash message).toList.flatMap wordBytes

/-- A digest has thirty-two bytes. -/
@[simp] theorem length_digest (message : List UInt8) : (digest message).length = 32 := by
  have h : (hash message).toList.length = 8 := by simp
  have step (ws : List UInt32) : (ws.flatMap wordBytes).length = 4 * ws.length := by
    induction ws with
    | nil => rfl
    | cons w ws ih => simp [wordBytes, ih]; omega
  rw [digest, step, h]

end CheckerAudit.Digest.Sha256
