import Castrum.Util.BatchParallel

/-!
# Castrum — authenticated encryption of batches (`rust/crypto/aead.rs`)

A batch is encrypted under one base nonce. The nonce of an item is that base with the number of the
item, as eight bytes, mixed into its last eight by exclusive or. The two ciphers are parameters: they
take a key or refuse it, and what they seal has a limit far above the length of an item.

* `batchNonce_eq_iff` — when two items of two batches have one nonce;
* `sealings` — what a call encrypts, and `aeadEncryptBatchPacked_eq` — that it returns exactly that;
* `nonces_nodup_iff` — exactly which sequences of calls never use a nonce twice.
-/

namespace Castrum

open Packed

/-! ## The source -/

def nonceLen : Nat := 12

def batchNonce (base : Bytes) (index : Nat) : Bytes :=
  base.take 4 ++ List.zipWith (· ^^^ ·) (base.drop 4) (be64 index)

def validateNonce (nonce : Bytes) : Except (Failure String) Unit :=
  if nonce.length ≠ nonceLen then
    .error (.fail ("aead nonce must be " ++ toString nonceLen ++ " bytes, got " ++
      toString nonce.length))
  else .ok ()

inductive AeadAlgorithm where
  | aes256Gcm
  | chacha20Poly1305
  deriving DecidableEq, Repr

def resolveAlgorithm (name : Option String) : Except (Failure String) AeadAlgorithm :=
  match name with
  | none => .ok .aes256Gcm
  | some other =>
    if other = "aes-256-gcm" then .ok .aes256Gcm
    else if other = "chacha20-poly1305" then .ok .chacha20Poly1305
    else .error (.fail ("unsupported aead algorithm: " ++ other ++
      " (expected aes-256-gcm | chacha20-poly1305)"))

/-- The ciphers of the crate. -/
structure AeadCiphers where
  Key : Type
  unboundKey : AeadAlgorithm → Bytes → Option Key
  sealAppendTag : Key → Bytes → Bytes → Bytes

section

variable (C : AeadCiphers)

def encryptWithKey (sealing : C.Key) (nonce plaintext : Bytes) : Option Bytes :=
  if nonce.length ≠ nonceLen then none else some (C.sealAppendTag sealing nonce plaintext)

def encrypt (alg : AeadAlgorithm) (key nonce plaintext : Bytes) : Option Bytes :=
  (C.unboundKey alg key).bind fun sealing => encryptWithKey C sealing nonce plaintext

def aeadEncryptBatchPacked (pool : WorkerPool) (data key nonce : Bytes) (algorithm : Option String) :
    Except (Failure String) Bytes := do
  let alg ← resolveAlgorithm algorithm
  validateNonce nonce
  runPackedBatchIdx pool data fun plaintext index =>
    (encrypt C alg key (batchNonce nonce index) plaintext).getD []

end

/-! ## The nonces -/

theorem be64_inj {m n : Nat} (hm : m < 2 ^ 64) (hn : n < 2 ^ 64) (h : be64 m = be64 n) : m = n := by
  have hle : le64 m = le64 n := List.reverse_injective h
  rw [← wordOf_le64 hm, hle, wordOf_le64 hn]

theorem be64_xor (m n : Nat) : be64 (m ^^^ n) = List.zipWith (· ^^^ ·) (be64 m) (be64 n) := by
  simp only [be64, le64, le32, Nat.xor_div_two_pow, UInt8.ofNat_xor, List.cons_append, List.nil_append,
    List.reverse_cons, List.reverse_nil, List.zipWith_cons_cons, List.zipWith_nil_left]

/-- The last eight bytes of a nonce, as a number. -/
def lowWord (base : Bytes) : Nat := wordOf (base.drop 4).reverse

theorem lowWord_lt {base : Bytes} (h : base.length = nonceLen) : lowWord base < 2 ^ 64 := by
  have hword := wordOf_lt (base.drop 4).reverse
  rw [List.length_reverse, List.length_drop, h] at hword
  exact hword

/-- The nonce of an item, by the numbers it is made of. -/
theorem batchNonce_eq {base : Bytes} (h : base.length = nonceLen) (index : Nat) :
    batchNonce base index = base.take 4 ++ be64 (lowWord base ^^^ index) := by
  have hdrop : be64 (lowWord base) = base.drop 4 := by
    rw [be64, lowWord, le64_wordOf, List.reverse_reverse]
    rw [List.length_reverse, List.length_drop, h]
    rfl
  rw [batchNonce, be64_xor, hdrop]

theorem length_batchNonce {base : Bytes} (h : base.length = nonceLen) (index : Nat) :
    (batchNonce base index).length = nonceLen := by
  rw [batchNonce_eq h, List.length_append, length_be64, List.length_take_of_le (by rw [h]; decide)]
  rfl

/-- **When two nonces meet**: the bases agree in their first four bytes, and differ in the others as
the numbers of the items do. -/
theorem batchNonce_eq_iff {a b : Bytes} (ha : a.length = nonceLen) (hb : b.length = nonceLen)
    {i j : Nat} (hi : i < 2 ^ 64) (hj : j < 2 ^ 64) :
    batchNonce a i = batchNonce b j ↔
      a.take 4 = b.take 4 ∧ j = i ^^^ (lowWord a ^^^ lowWord b) := by
  have hlength : (a.take 4).length = (b.take 4).length := by
    rw [List.length_take, List.length_take, ha, hb]
  have hcat : batchNonce a i = batchNonce b j ↔
      a.take 4 = b.take 4 ∧ be64 (lowWord a ^^^ i) = be64 (lowWord b ^^^ j) := by
    rw [batchNonce_eq ha, batchNonce_eq hb]
    constructor
    · exact fun h => List.append_inj h hlength
    · rintro ⟨htake, hlow⟩
      rw [htake, hlow]
  rw [hcat]
  apply and_congr_right
  intro _
  constructor
  · intro hlow
    have hxor := be64_inj (Nat.xor_lt_two_pow (lowWord_lt ha) hi) (Nat.xor_lt_two_pow (lowWord_lt hb) hj)
      hlow
    rw [← Nat.xor_assoc, Nat.xor_comm i, hxor, Nat.xor_comm _ (lowWord b), ← Nat.xor_assoc,
      Nat.xor_self, Nat.zero_xor]
  · rintro rfl
    congr 1
    rw [Nat.xor_comm i, Nat.xor_comm (lowWord a) (lowWord b), Nat.xor_assoc, ← Nat.xor_assoc (lowWord b),
      Nat.xor_self, Nat.zero_xor]

/-! ## What is encrypted -/

structure EncryptCall where
  data : Bytes
  nonce : Bytes
  algorithm : Option String

namespace EncryptCall

variable (C : AeadCiphers) (key : Bytes) (call : EncryptCall)

/-- The call gets as far as its items: it names a cipher that takes the key, its nonce has twelve bytes,
and its batch is well formed. -/
def encrypts : Bool :=
  match resolveAlgorithm call.algorithm with
  | .error _ => false
  | .ok alg => (C.unboundKey alg key).isSome && call.nonce.length = nonceLen && WellFormed call.data

/-- **What a call encrypts**: nonces, each with the plaintext that is sealed under it. -/
def sealings : List (Bytes × Bytes) :=
  if call.encrypts C key then
    (items call.data).zipIdx.map fun entry => (batchNonce call.nonce entry.2, entry.1)
  else []

variable {C key call}

theorem encrypts_iff : call.encrypts C key = true ↔ ∃ alg sealing,
    resolveAlgorithm call.algorithm = .ok alg ∧ C.unboundKey alg key = some sealing ∧
      call.nonce.length = nonceLen ∧ WellFormed call.data := by
  unfold encrypts
  cases resolveAlgorithm call.algorithm with
  | error e => exact iff_of_false nofun nofun
  | ok alg => simp [Option.isSome_iff_exists, and_assoc]

theorem validateNonce_of_length {nonce : Bytes} (h : nonce.length = nonceLen) :
    validateNonce nonce = .ok () := by
  rw [validateNonce, if_neg (not_not_intro h)]

/-- **What it returns** is what it encrypts, in order. -/
theorem aeadEncryptBatchPacked_eq (pool : WorkerPool) (h : call.encrypts C key = true) :
    ∃ alg sealing, C.unboundKey alg key = some sealing ∧
      aeadEncryptBatchPacked C pool call.data key call.nonce call.algorithm =
        .ok (packedFrame ((call.sealings C key).map fun s => C.sealAppendTag sealing s.1 s.2)) := by
  obtain ⟨alg, sealing, halg, hkey, hnonce, hdata⟩ := encrypts_iff.mp h
  refine ⟨alg, sealing, hkey, ?_⟩
  rw [aeadEncryptBatchPacked, halg, ok_bind, validateNonce_of_length hnonce, ok_bind,
    runPackedBatchIdx_of_wellFormed pool hdata, resultsIdx, sealings, if_pos h, List.map_map]
  congr 2
  apply List.map_congr_left
  intro entry _
  rw [encrypt, hkey, Option.bind_some, encryptWithKey,
    if_neg (not_not_intro (length_batchNonce hnonce _))]
  rfl

/-- A call that encrypts nothing fails, or its key is refused and every result is empty. -/
theorem aeadEncryptBatchPacked_of_not_encrypts (pool : WorkerPool) (h : call.encrypts C key = false)
    {out : Bytes}
    (hrun : aeadEncryptBatchPacked C pool call.data key call.nonce call.algorithm = .ok out) :
    out = packedFrame ((items call.data).map fun _ => []) := by
  rw [aeadEncryptBatchPacked, bind_eq_ok_iff] at hrun
  obtain ⟨alg, halg, hrun⟩ := hrun
  rw [bind_eq_ok_iff] at hrun
  obtain ⟨_, hvalid, hrun⟩ := hrun
  -- A run that returns has passed both guards, so only the key is left to be refused.
  have hnonce : call.nonce.length = nonceLen := by
    by_contra hlength
    rw [validateNonce, if_pos hlength] at hvalid
    cases hvalid
  have hdata : WellFormed call.data := by
    by_contra hmalformed
    obtain ⟨e, he⟩ := packedRouting_of_not_wellFormed hmalformed
    rw [runPackedBatchIdx, he] at hrun
    cases hrun
  cases hkey : C.unboundKey alg key with
  | some sealing =>
    rw [encrypts_iff.mpr ⟨alg, sealing, halg, hkey, hnonce, hdata⟩] at h
    cases h
  | none =>
    rw [runPackedBatchIdx_of_wellFormed pool hdata, Except.ok.injEq] at hrun
    rw [← hrun, resultsIdx, ← List.zipIdx_map_fst 0 (items call.data), List.map_map,
      List.zipIdx_map_fst]
    congr 1
    apply List.map_congr_left
    intro entry _
    rw [encrypt, hkey]
    rfl

/-! ## Nonces of many calls -/

/-- The nonces a call uses. -/
def nonces (C : AeadCiphers) (key : Bytes) (call : EncryptCall) : List Bytes :=
  (call.sealings C key).map Prod.fst

theorem items_length_lt (data : Bytes) : (items data).length < 2 ^ 64 :=
  Nat.lt_of_le_of_lt (items_length_le data) (Nat.lt_trans (declared_lt data) (by decide))

theorem nonces_eq (h : call.encrypts C key = true) :
    call.nonces C key = (List.range (items call.data).length).map (batchNonce call.nonce) := by
  rw [nonces, sealings, if_pos h, List.map_map, List.range_eq_range', ← List.zipIdx_map_snd,
    List.map_map]
  rfl

theorem mem_nonces_iff {nonce : Bytes} : nonce ∈ call.nonces C key ↔
    call.encrypts C key = true ∧ ∃ i < (items call.data).length, batchNonce call.nonce i = nonce := by
  cases h : call.encrypts C key with
  | false =>
    rw [nonces, sealings, h]
    exact iff_of_false List.not_mem_nil nofun
  | true =>
    rw [nonces_eq h, List.mem_map]
    simp only [List.mem_range, true_and]

/-- Inside a batch no nonce comes twice. -/
theorem nonces_nodup (C : AeadCiphers) (key : Bytes) (call : EncryptCall) :
    (call.nonces C key).Nodup := by
  cases h : call.encrypts C key with
  | false =>
    rw [nonces, sealings, h]
    exact List.nodup_nil
  | true =>
    obtain ⟨_, _, _, _, hnonce, _⟩ := encrypts_iff.mp h
    rw [nonces_eq h]
    apply List.Nodup.map_on _ List.nodup_range
    intro i hi j hj hij
    have hlt := items_length_lt call.data
    rw [List.mem_range] at hi hj
    rw [batchNonce_eq_iff hnonce hnonce (by omega) (by omega), Nat.xor_self, Nat.xor_zero] at hij
    exact hij.2.symm

/-- **Bases that keep apart**: where they agree in their first four bytes, no number of an item of the one
batch becomes the number of an item of the other when the difference of the bases is mixed in. -/
def Apart (a b : EncryptCall) : Prop :=
  a.nonce.take 4 = b.nonce.take 4 → ∀ i < (items a.data).length,
    (items b.data).length ≤ i ^^^ (lowWord a.nonce ^^^ lowWord b.nonce)

theorem disjoint_nonces_iff {a b : EncryptCall} :
    List.Disjoint (a.nonces C key) (b.nonces C key) ↔
      (a.encrypts C key = true → b.encrypts C key = true → a.Apart b) := by
  constructor
  · intro hdisjoint ha hb htake i hi
    obtain ⟨_, _, _, _, hanonce, _⟩ := encrypts_iff.mp ha
    obtain ⟨_, _, _, _, hbnonce, _⟩ := encrypts_iff.mp hb
    by_contra hj
    have hj := Nat.lt_of_not_le hj
    have hilt := Nat.lt_trans hi (items_length_lt a.data)
    have hjlt := Nat.lt_trans hj (items_length_lt b.data)
    have hmeet := (batchNonce_eq_iff hanonce hbnonce hilt hjlt).mpr ⟨htake, rfl⟩
    apply hdisjoint (mem_nonces_iff.mpr ⟨ha, i, hi, rfl⟩)
    exact mem_nonces_iff.mpr ⟨hb, _, hj, hmeet.symm⟩
  · intro hapart nonce hmemA hmemB
    obtain ⟨ha, i, hi, rfl⟩ := mem_nonces_iff.mp hmemA
    obtain ⟨hb, j, hj, hmeet⟩ := mem_nonces_iff.mp hmemB
    obtain ⟨_, _, _, _, hanonce, _⟩ := encrypts_iff.mp ha
    obtain ⟨_, _, _, _, hbnonce, _⟩ := encrypts_iff.mp hb
    have hilt := Nat.lt_trans hi (items_length_lt a.data)
    have hjlt := Nat.lt_trans hj (items_length_lt b.data)
    obtain ⟨htake, hxor⟩ := (batchNonce_eq_iff hanonce hbnonce hilt hjlt).mp hmeet.symm
    have hle := hapart ha hb htake i hi
    rw [← hxor] at hle
    exact Nat.lt_irrefl _ (Nat.lt_of_lt_of_le hj hle)

/-- **When no nonce repeats**, over any sequence of calls with one key: exactly when the bases of any two
calls that encrypt keep apart. That the bases differ is not enough. -/
theorem nonces_nodup_iff (C : AeadCiphers) (key : Bytes) (calls : List EncryptCall) :
    (calls.flatMap (nonces C key)).Nodup ↔
      calls.Pairwise fun a b => a.encrypts C key = true → b.encrypts C key = true → a.Apart b := by
  rw [List.nodup_flatMap]
  constructor
  · rintro ⟨-, hpairs⟩
    exact hpairs.imp fun h => disjoint_nonces_iff.mp h
  · intro hpairs
    refine ⟨fun call _ => nonces_nodup C key call, hpairs.imp fun h => ?_⟩
    exact disjoint_nonces_iff.mpr h

/-- Ciphers that take a key of 32 bytes and no other. -/
def keyedCiphers : AeadCiphers :=
  ⟨Bytes, fun _ key => if key.length = 32 then some key else none, fun _ _ plaintext => plaintext⟩

/-- The bases `…00` and `…01`: the second item of the first batch and the only one of the second. -/
theorem nonces_meet_across_batches :
    ([⟨packedFrame [[1], [2]], List.replicate 12 0, none⟩,
        ⟨packedFrame [[3]], List.replicate 11 0 ++ [1], none⟩] : List EncryptCall).Pairwise
      (fun a b => a.nonce ≠ b.nonce) ∧
    ¬ (([⟨packedFrame [[1], [2]], List.replicate 12 0, none⟩,
        ⟨packedFrame [[3]], List.replicate 11 0 ++ [1], none⟩] : List EncryptCall).flatMap
      (nonces keyedCiphers (List.replicate 32 7))).Nodup := by
  decide

end EncryptCall

end Castrum
