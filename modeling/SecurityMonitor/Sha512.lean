/-
  SHA-512 as the monitor computes it (`crypto/ed25519/sha512.c`), and the
  streaming property of its hash contexts.

  * `sha512Init`, `sha512Update` and `sha512Final` are the three functions of
    the source; `sha512Update` compresses whole blocks straight from the input
    when the buffer is empty and goes through the buffer otherwise;
  * `Absorbed c bs` says that the context `c` has absorbed the bytes `bs`: the
    state is that of the whole blocks of `bs`, and the buffer holds the rest.
    The bytes of the buffer past `curlen` are left over from earlier blocks and
    are not constrained;
  * `Absorbed.final`: however the input is cut into updates, the digest is that of
    the concatenated input (`sha512Digest`).
-/
import SecurityMonitor.Layout

namespace SecurityMonitor

open ByteMem

/-! ## The compression function -/

/-- The array `K`. -/
def sha512K : List Word := [
    0x428a2f98d728ae22, 0x7137449123ef65cd, 0xb5c0fbcfec4d3b2f, 0xe9b5dba58189dbbc,
    0x3956c25bf348b538, 0x59f111f1b605d019, 0x923f82a4af194f9b, 0xab1c5ed5da6d8118,
    0xd807aa98a3030242, 0x12835b0145706fbe, 0x243185be4ee4b28c, 0x550c7dc3d5ffb4e2,
    0x72be5d74f27b896f, 0x80deb1fe3b1696b1, 0x9bdc06a725c71235, 0xc19bf174cf692694,
    0xe49b69c19ef14ad2, 0xefbe4786384f25e3, 0x0fc19dc68b8cd5b5, 0x240ca1cc77ac9c65,
    0x2de92c6f592b0275, 0x4a7484aa6ea6e483, 0x5cb0a9dcbd41fbd4, 0x76f988da831153b5,
    0x983e5152ee66dfab, 0xa831c66d2db43210, 0xb00327c898fb213f, 0xbf597fc7beef0ee4,
    0xc6e00bf33da88fc2, 0xd5a79147930aa725, 0x06ca6351e003826f, 0x142929670a0e6e70,
    0x27b70a8546d22ffc, 0x2e1b21385c26c926, 0x4d2c6dfc5ac42aed, 0x53380d139d95b3df,
    0x650a73548baf63de, 0x766a0abb3c77b2a8, 0x81c2c92e47edaee6, 0x92722c851482353b,
    0xa2bfe8a14cf10364, 0xa81a664bbc423001, 0xc24b8b70d0f89791, 0xc76c51a30654be30,
    0xd192e819d6ef5218, 0xd69906245565a910, 0xf40e35855771202a, 0x106aa07032bbd1b8,
    0x19a4c116b8d2d0c8, 0x1e376c085141ab53, 0x2748774cdf8eeb99, 0x34b0bcb5e19b48a8,
    0x391c0cb3c5c95a63, 0x4ed8aa4ae3418acb, 0x5b9cca4f7763e373, 0x682e6ff3d6b2b8a3,
    0x748f82ee5defb2fc, 0x78a5636f43172f60, 0x84c87814a1f0ab72, 0x8cc702081a6439ec,
    0x90befffa23631e28, 0xa4506cebde82bde9, 0xbef9a3f7b2c67915, 0xc67178f2e372532b,
    0xca273eceea26619c, 0xd186b8c721c0c207, 0xeada7dd6cde0eb1e, 0xf57d4f7fee6ed178,
    0x06f067aa72176fba, 0x0a637dc5a2c898a6, 0x113f9804bef90dae, 0x1b710b35131c471b,
    0x28db77f523047d84, 0x32caab7b40c72493, 0x3c9ebe0a15c9bebc, 0x431d67c49c100d4c,
    0x4cc5d4becb3e42b6, 0x597f299cfc657e2a, 0x5fcb6fab3ad6faec, 0x6c44198c4a475817]

def ror64 (x : Word) (n : ℕ) : Word := (x >>> n) ||| (x <<< (64 - n))
def sha512Ch (x y z : Word) : Word := z ^^^ (x &&& (y ^^^ z))
def sha512Maj (x y z : Word) : Word := ((x ||| y) &&& z) ||| (x &&& y)
def sha512Sigma0 (x : Word) : Word := ror64 x 28 ^^^ ror64 x 34 ^^^ ror64 x 39
def sha512Sigma1 (x : Word) : Word := ror64 x 14 ^^^ ror64 x 18 ^^^ ror64 x 41
def sha512Gamma0 (x : Word) : Word := ror64 x 1 ^^^ ror64 x 8 ^^^ (x >>> 7)
def sha512Gamma1 (x : Word) : Word := ror64 x 19 ^^^ ror64 x 61 ^^^ (x >>> 6)

/-- `LOAD64H`: the big-endian word at byte `i`. -/
def load64h (buf : ℕ → Byte) (i : ℕ) : Word :=
  (List.range 8).foldl (fun w j => (w <<< 8) ||| (buf (i + j)).setWidth 64) 0

/-- Byte `j` of `STORE64H`. -/
def store64h (x : Word) (j : ℕ) : Byte := (x >>> (56 - 8 * j)).setWidth 8

/-- The schedule `W[0], ..., W[15 + n]`. -/
def sha512Schedule (buf : ℕ → Byte) : ℕ → List Word
  | 0 => (List.range 16).map fun i => load64h buf (8 * i)
  | n + 1 =>
    let w := sha512Schedule buf n
    let i := 16 + n
    w ++ [sha512Gamma1 (w.getD (i - 2) 0) + w.getD (i - 7) 0 + sha512Gamma0 (w.getD (i - 15) 0) +
      w.getD (i - 16) 0]

/-- One round `RND`, on the working variables `a, ..., h`; the source renames the
    variables from round to round instead of moving them. -/
def sha512Round (S : List Word) (kw : Word × Word) : List Word :=
  match S with
  | [a, b, c, d, e, f, g, h] =>
    let t0 := h + sha512Sigma1 e + sha512Ch e f g + kw.1 + kw.2
    let t1 := sha512Sigma0 a + sha512Maj a b c
    [t0 + t1, a, b, c, d + t0, e, f, g]
  | S => S

/-- `sha512_compress`: the new state after one block. -/
@[irreducible] def sha512Compress (state : Fin 8 → Word) (buf : Bytes 128) : Fin 8 → Word :=
  let W := sha512Schedule (fun i => if h : i < 128 then buf ⟨i, h⟩ else 0) 64
  let S := (sha512K.zip W).foldl sha512Round (List.ofFn state)
  fun i => state i + S.getD i 0

/-! ## Contexts -/

/-- The initial state. -/
def sha512Iv : Fin 8 → Word :=
  [0x6a09e667f3bcc908, 0xbb67ae8584caa73b, 0x3c6ef372fe94f82b, 0xa54ff53a5f1d36f1,
    0x510e527fade682d1, 0x9b05688c2b3e6c1f, 0x1f83d9abfb41bd6b, 0x5be0cd19137e2179].get

/-- `sha512_init`: the buffer is left as it is. -/
def sha512Init (c : HashContext) : HashContext :=
  { c with curlen := 0, length := 0, state := sha512Iv }

/-- Byte `i` of an input, `0` past its end. -/
def inputBlock (data : List Byte) (k : ℕ) : Bytes 128 := fun i => data.getD (k + i) 0

/-- The loop of `sha512_update`; every iteration but one consumes input. -/
def sha512UpdateLoop : ℕ → HashContext → List Byte → HashContext
  | 0, c, _ => c
  | fuel + 1, c, data =>
    if data.length = 0 then c
    else if c.curlen = 0 ∧ 128 ≤ data.length then
      sha512UpdateLoop fuel
        { c with state := sha512Compress c.state (inputBlock data 0), length := c.length + 1024 }
        (data.drop 128)
    else
      let n := min data.length (128 - c.curlen.toNat)
      let buf : Bytes 128 := fun i =>
        if c.curlen.toNat ≤ i ∧ i < c.curlen.toNat + n then data.getD (i - c.curlen.toNat) 0
        else c.buf i
      let curlen := c.curlen + BitVec.ofNat 64 n
      if curlen = 128 then
        sha512UpdateLoop fuel
          { length := c.length + 1024, state := sha512Compress c.state buf, curlen := 0, buf := buf }
          (data.drop n)
      else sha512UpdateLoop fuel { c with buf := buf, curlen := curlen } (data.drop n)

/-- `sha512_update`. -/
def sha512Update (c : HashContext) (data : List Byte) : HashContext :=
  if 128 < c.curlen.toNat then c else sha512UpdateLoop (data.length + 1) c data

/-- The bytes `[lo, hi)` of a buffer become zero. -/
def zeroFill (buf : Bytes 128) (lo hi : ℕ) : Bytes 128 :=
  fun i => if lo ≤ i ∧ i < hi then 0 else buf i

/-- `sha512_final`: the context afterwards and the digest, unless the buffer is full. -/
def sha512Final (c : HashContext) : HashContext × Option (Bytes 64) :=
  if 128 ≤ c.curlen.toNat then (c, none)
  else
    let length := c.length + c.curlen * 8
    let curlen := c.curlen.toNat + 1
    let buf : Bytes 128 := fun i => if i = c.curlen.toNat then 0x80 else c.buf i
    -- above 112 bytes the length does not fit: pad and compress first
    let (state, curlen, buf) :=
      if 112 < curlen then (sha512Compress c.state (zeroFill buf curlen 128), 0, zeroFill buf curlen 128)
      else (c.state, curlen, buf)
    let buf := zeroFill buf curlen 120
    let buf : Bytes 128 := fun i => if 120 ≤ i.val then store64h length (i - 120) else buf i
    let state := sha512Compress state buf
    ({ length := length, state := state, curlen := 120, buf := buf },
      some fun i => store64h (state ⟨i / 8, by omega⟩) (i % 8))

/-- A context before `sha512_init`; what it holds does not matter. -/
def emptyContext : HashContext where
  length := 0
  state := fun _ => 0
  curlen := 0
  buf := fun _ => 0

/-- `sha512`: the digest of a message. -/
def sha512Digest (message : List Byte) : Bytes 64 :=
  (sha512Final (sha512Update (sha512Init emptyContext) message)).2.getD fun _ => 0

/-! ## Streaming -/

/-- The state after the first `k` blocks of `bs`. -/
def stateAt (bs : List Byte) : ℕ → Fin 8 → Word
  | 0 => sha512Iv
  | k + 1 => sha512Compress (stateAt bs k) (inputBlock bs (128 * k))

/-- The context `c` has absorbed the bytes `bs`. -/
structure Absorbed (c : HashContext) (bs : List Byte) : Prop where
  state : c.state = stateAt bs (bs.length / 128)
  length : c.length = BitVec.ofNat 64 (1024 * (bs.length / 128))
  curlen : c.curlen.toNat = bs.length % 128
  buf : ∀ i : Fin 128, i < bs.length % 128 → c.buf i = bs.getD (128 * (bs.length / 128) + i) 0

theorem stateAt_append (bs ds : List Byte) : ∀ {k : ℕ}, 128 * k ≤ bs.length →
    stateAt (bs ++ ds) k = stateAt bs k
  | 0, _ => rfl
  | k + 1, h => by
    rw [stateAt, stateAt, stateAt_append bs ds (by omega)]
    refine congrArg _ (funext fun i => ?_)
    simp only [inputBlock, List.getD_eq_getElem?_getD]
    rw [List.getElem?_append_left (by omega)]

theorem absorbed_init (c : HashContext) : Absorbed (sha512Init c) [] where
  state := rfl
  length := rfl
  curlen := rfl
  buf := fun i hi => by simp at hi

theorem Absorbed.block {c : HashContext} {bs data : List Byte} (h : Absorbed c bs)
    (h0 : c.curlen = 0) (hd : 128 ≤ data.length) :
    Absorbed { c with state := sha512Compress c.state (inputBlock data 0)
                      length := c.length + 1024 } (bs ++ data.take 128) := by
  have hmod : bs.length % 128 = 0 := by rw [← h.curlen, h0]; rfl
  have hlen : (bs ++ data.take 128).length = bs.length + 128 := by simp; omega
  have hdiv : (bs.length + 128) / 128 = bs.length / 128 + 1 := by omega
  refine ⟨?_, ?_, ?_, ?_⟩
  · rw [hlen, hdiv, stateAt, stateAt_append _ _ (by omega), ← h.state]
    refine congrArg _ (funext fun i => ?_)
    simp only [inputBlock, List.getD_eq_getElem?_getD]
    rw [List.getElem?_append_right (by omega), List.getElem?_take_of_lt (by omega)]
    congr 2
    omega
  · rw [hlen, hdiv, h.length, Nat.mul_add, BitVec.ofNat_add]; rfl
  · rw [h.curlen, hlen]; omega
  · intro i hi; rw [hlen] at hi; omega

/-- One pass through the buffer: the bytes of the buffer below `curlen + n`. -/
theorem Absorbed.fill_buf {c : HashContext} {bs data : List Byte} (h : Absorbed c bs) {n : ℕ}
    (i : Fin 128) (hi : i < bs.length % 128 + n) :
    (if c.curlen.toNat ≤ i ∧ i < c.curlen.toNat + n then data.getD (i - c.curlen.toNat) 0
      else c.buf i) = (bs ++ data.take n).getD (128 * (bs.length / 128) + i) 0 := by
  rw [h.curlen]
  simp only [List.getD_eq_getElem?_getD]
  split_ifs with hc
  · rw [List.getElem?_append_right (by omega), List.getElem?_take_of_lt (by omega)]
    congr 2
    omega
  · rw [List.getElem?_append_left (by omega), h.buf i (by omega), List.getD_eq_getElem?_getD]

theorem Absorbed.updateLoop : ∀ {fuel : ℕ} {c : HashContext} {bs data : List Byte},
    data.length < fuel → Absorbed c bs → Absorbed (sha512UpdateLoop fuel c data) (bs ++ data)
  | fuel + 1, c, bs, data, hf, h => by
    have hcur := h.curlen
    have hrest : ∀ {c' : HashContext} {n : ℕ}, 0 < n → n ≤ data.length →
        Absorbed c' (bs ++ data.take n) →
        Absorbed (sha512UpdateLoop fuel c' (data.drop n)) (bs ++ data) := by
      intro c' n hn0 hn h'
      have := @Absorbed.updateLoop fuel c' _ (data.drop n) (by rw [List.length_drop]; omega) h'
      rwa [List.append_assoc, List.take_append_drop] at this
    rw [sha512UpdateLoop]
    split_ifs with hd hb
    · rw [List.length_eq_zero_iff.mp hd, List.append_nil]; exact h
    · exact hrest (by omega) hb.2 (h.block hb.1 hb.2)
    · set n := min data.length (128 - c.curlen.toNat) with hn
      have hlen : (bs ++ data.take n).length = bs.length + n := by
        rw [List.length_append, List.length_take]; omega
      have hadd : (c.curlen + BitVec.ofNat 64 n).toNat = bs.length % 128 + n := by
        rw [BitVec.toNat_add, hcur, BitVec.toNat_ofNat]; omega
      dsimp only
      split_ifs with hfull
      · -- the buffer is full: it is the block that follows the whole blocks of `bs`
        have hfull : bs.length % 128 + n = 128 := by rw [← hadd, hfull]; rfl
        have hdiv : (bs.length + n) / 128 = bs.length / 128 + 1 := by omega
        refine hrest (by omega) (by omega) ⟨?_, ?_, ?_, ?_⟩
        · rw [hlen, hdiv, stateAt, stateAt_append _ _ (by omega), ← h.state]
          exact congrArg _ (funext fun i => h.fill_buf i (by omega))
        · rw [hlen, hdiv, h.length, Nat.mul_add, BitVec.ofNat_add]; rfl
        · rw [hlen]; show 0 = _; omega
        · intro i hi; rw [hlen] at hi; omega
      · have hlt : bs.length % 128 + n < 128 := by
          have : (c.curlen + BitVec.ofNat 64 n).toNat ≠ 128 := fun h' =>
            hfull (BitVec.eq_of_toNat_eq h')
          omega
        have hdiv : (bs.length + n) / 128 = bs.length / 128 := by omega
        refine hrest (by omega) (by omega) ⟨?_, ?_, ?_, ?_⟩
        · rw [hlen, hdiv, stateAt_append _ _ (by omega)]; exact h.state
        · rw [hlen, hdiv]; exact h.length
        · rw [hlen]; show (c.curlen + BitVec.ofNat 64 n).toNat = _; omega
        · intro i hi
          rw [hlen] at hi
          rw [hlen, hdiv]
          exact h.fill_buf i (by omega)

theorem Absorbed.update {c : HashContext} {bs : List Byte} (h : Absorbed c bs) (data : List Byte) :
    Absorbed (sha512Update c data) (bs ++ data) := by
  have := h.curlen
  rw [sha512Update, if_neg (by omega)]
  exact h.updateLoop (by omega)

/-- The digest only depends on the absorbed bytes. -/
theorem Absorbed.final_eq {c c' : HashContext} {bs : List Byte} (h : Absorbed c bs)
    (h' : Absorbed c' bs) : (sha512Final c).2 = (sha512Final c').2 := by
  have hcur : c'.curlen = c.curlen := BitVec.eq_of_toNat_eq (h'.curlen.trans h.curlen.symm)
  have hlt : ¬ 128 ≤ c.curlen.toNat := by have := h.curlen; omega
  -- the padding overwrites whatever the buffer holds past `curlen`
  have hbuf : ∀ lo hi : ℕ, c.curlen.toNat + 1 = lo → ∀ i : Fin 128, i.val < hi →
      zeroFill (fun i => if i = c.curlen.toNat then 0x80 else c.buf i) lo hi i =
        zeroFill (fun i => if i = c.curlen.toNat then 0x80 else c'.buf i) lo hi i := by
    intro lo hi hlo i hi'
    simp only [zeroFill]
    split_ifs with h1 h2
    · rfl
    · rfl
    · rw [h.buf i (by have := h.curlen; omega), h'.buf i (by have := h.curlen; omega)]
  have hblock : ∀ (x : Word) (b b' : Bytes 128), (∀ i : Fin 128, i.val < 120 → b i = b' i) →
      (fun i : Fin 128 => if 120 ≤ i.val then store64h x (i - 120) else b i) =
        fun i : Fin 128 => if 120 ≤ i.val then store64h x (i - 120) else b' i := by
    intro x b b' hb
    funext i
    split_ifs with hi
    · rfl
    · exact hb i (by omega)
  simp only [sha512Final, hcur, if_neg hlt, h'.length, ← h.length, h'.state, ← h.state]
  by_cases hlong : 112 < c.curlen.toNat + 1
  · simp only [if_pos hlong]
    rw [funext fun i => hbuf _ 128 rfl i i.isLt]
  · simp only [if_neg hlong]
    rw [hblock _ _ _ fun i hi => hbuf _ 120 rfl i hi]

/-- **Streaming.**  However the input was cut into updates, the digest is that of the
    whole input. -/
theorem Absorbed.final {c : HashContext} {bs : List Byte} (h : Absorbed c bs) :
    (sha512Final c).2 = some (sha512Digest bs) := by
  have hwhole : Absorbed (sha512Update (sha512Init emptyContext) bs) bs :=
    (absorbed_init emptyContext).update bs
  have hsome : ∃ D, (sha512Final (sha512Update (sha512Init emptyContext) bs)).2 = some D := by
    have hlt : ¬ 128 ≤ (sha512Update (sha512Init emptyContext) bs).curlen.toNat := by
      have := hwhole.curlen; omega
    rw [sha512Final, if_neg hlt]
    exact ⟨_, rfl⟩
  obtain ⟨D, hD⟩ := hsome
  rw [h.final_eq hwhole, sha512Digest, hD, Option.getD_some]

end SecurityMonitor
