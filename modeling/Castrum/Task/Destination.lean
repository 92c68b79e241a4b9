import Castrum.Payload.Decompress
import Castrum.Task.Decompress

/-!
# Castrum — the buffers of a decompression (`src/task/runtime.ts`, `src/task/op.ts`, `rust/task/ops.rs`)

`gzipDecompress` and `brotliDecompress` allocate a destination before anything is decompressed: the size in
the trailer of the gzip stream, or a multiple of the length of the brotli stream. The cap goes along as the
header of the arguments, and bounds what is asked for when the destination was too small.

* `capOf_encodeArgs` — the cap that native reads is the one of the call;
* `needed_le` — what native asks for is within it, for any decoder;
* `destinations_le_iff` — the first destination may not be.
-/

namespace Castrum.Decompress

/-! ## Arguments -/

/-- A number of JavaScript; an infinity or NaN has no value. -/
abbrev JsNumber := Option ℚ

/-- `x >>> 0`. -/
def toUint32 : JsNumber → Nat
  | none => 0
  | some q => (q.num.tdiv q.den % 2 ^ 32).toNat

/-- `encodeGzipDecompressArgs` and `encodeBrotliDecompressArgs`. -/
def encodeDecompressArgs (data : Bytes) (maxDecompressed : Option JsNumber) : Bytes :=
  le32 (toUint32 (maxDecompressed.getD (some 0))) ++ data

/-- The cap of a call: none, or one that is zero, is the native default. -/
def capBytes (cap : Option JsNumber) : Nat :=
  if toUint32 (cap.getD (some 0)) = 0 then maxDecompressed else toUint32 (cap.getD (some 0))

/-- `header_len` of the decompressing operations. -/
def headerLen : Nat := 4

def hdrU32 (hdr : Bytes) (off : Nat) : Option Nat :=
  if off + 4 ≤ hdr.length then some (wordOf ((hdr.drop off).take 4)) else none

/-- `cap_of`. -/
def capOf (hdr : Bytes) : Option Nat :=
  (hdrU32 hdr 0).map fun raw => if raw = 0 then maxDecompressed else raw

/-! ## The native side -/

/-- The two forms of a codec's decompression: into a vector, and into a buffer. -/
structure Core where
  bytes : Bytes → UInt64 → Except (Castrum.Failure StreamError) Bytes
  into : Bytes → UInt64 → Bytes → Except StreamError Nat × Bytes

def gzipCore (C : StreamCodec) (room : Nat → Nat → Nat) : Core :=
  ⟨Payload.gzipDecompressBytes C room, Payload.gzipDecompressInto C⟩

def brotliCore (C : StreamCodec) (room : Nat → Nat → Nat) : Core :=
  ⟨Payload.brotliDecompressBytes C room, Payload.brotliDecompressInto C⟩

/-- `stream_result`, and what the runtime makes of it: a view of the buffer, or an error. -/
def streamResult (r : Except StreamError Nat × Bytes) : Except Failure Bytes :=
  match r.1 with
  | .ok written => .ok (r.2.take written)
  | .error (.tooSmall needed) => .error (.tooSmall needed)
  | .error _ => .error .other

/-- `execute_into_guarded`. -/
def executeInto (core : Core) (args out : Bytes) : Except Failure Bytes :=
  let n := min headerLen args.length
  if out.length = 0 then .error .other
  else
    match capOf (args.take n) with
    | some max => streamResult (core.into (args.drop n) (UInt64.ofNat max) out)
    | none => .error .other

/-- `execute` with `run_op`; a panic is contained. -/
def execute (core : Core) (args : Bytes) : Except Failure Bytes :=
  let n := min headerLen args.length
  match capOf (args.take n) with
  | some max =>
    match core.bytes (args.drop n) (UInt64.ofNat max) with
    | .ok out => .ok out
    | .error _ => .error .other
  | none => .error .other

/-! ## A call -/

/-- What becomes of a task: it is executed, or it is refused, cancelled, shut down or unsupported. -/
inductive Fate where
  | executed
  | lost
  deriving DecidableEq

/-- The lengths of the destinations of a call, and what it settles with. -/
abbrev Outcome := List Nat × Except Failure Bytes

section

variable (A : Alloc) (maxLength : Nat) (core : Core) (fates : Nat → Fate)

/-- `copyPath`, as the `n`-th task of the call. -/
def copyPath (n : Nat) (args : Bytes) : Except Failure Bytes :=
  match fates n with
  | .executed => execute core args
  | .lost => .error .other

/-- `zeroCopyOnce`: beyond `maxLength` there is no buffer, but an exception. -/
def zeroCopyOnce (n : Nat) (args : Bytes) (cap : Nat) : Outcome :=
  if maxLength < cap then ([], .error .other)
  else
    match fates n with
    | .executed => ([cap], executeInto core args (A.buf n cap))
    | .lost => ([cap], .error .other)

/-- The handlers behind the first attempt: the exact size once, and the copy for every other failure. -/
def afterFirst (args : Bytes) : Failure → Outcome
  | .tooSmall needed =>
    match zeroCopyOnce A maxLength core fates 1 args needed with
    | (allocated, .ok out) => (allocated, .ok out)
    | (allocated, .error _) => (allocated, copyPath core fates 2 args)
  | .other =>
    match copyPath core fates 1 args with
    | .ok out => ([], .ok out)
    | .error _ => ([], copyPath core fates 2 args)

/-- The chain of a call: an exception in the first attempt goes to the caller. -/
def zeroCopy (args : Bytes) (first : Nat) : Outcome :=
  if maxLength < first then ([], .error .other)
  else
    match zeroCopyOnce A maxLength core fates 0 args first with
    | (allocated, .ok out) => (allocated, .ok out)
    | (allocated, .error err) =>
      let (more, r) := afterFirst A maxLength core fates args err
      (allocated ++ more, r)

end

section

variable (C : StreamCodec) (room : Nat → Nat → Nat) (A : Alloc) (maxLength : Nat) (emptyIsNull : Bool)

def gzipDecompress (fates : Nat → Fate) (data : Bytes) (cap : Option JsNumber) : Outcome :=
  let size := castrumGzipIsize (ptrOf emptyIsNull data)
  let args := encodeDecompressArgs data cap
  if size < zeroCopyMin then ([], copyPath (gzipCore C room) fates 0 args)
  else zeroCopy A maxLength (gzipCore C room) fates args size

def brotliDecompress (fates : Nat → Fate) (data : Bytes) (cap : Option JsNumber) : Outcome :=
  zeroCopy A maxLength (brotliCore C room) fates (encodeDecompressArgs data cap)
    (brotliCapacityGuess data.length)

end

/-! ## The cap -/

theorem toUint32_lt (x : JsNumber) : toUint32 x < 2 ^ 32 := by
  cases x with
  | none => exact Nat.two_pow_pos 32
  | some q =>
    rw [toUint32]
    have hlt := Int.emod_lt_of_pos (q.num.tdiv q.den) (show (0 : Int) < 2 ^ 32 by decide)
    omega

theorem capBytes_lt (cap : Option JsNumber) : capBytes cap < 2 ^ 32 := by
  rw [capBytes]
  split
  · decide
  · exact toUint32_lt _

/-- **The cap that native reads** is the one of the call, and the data is what follows it. -/
theorem capOf_encodeArgs (data : Bytes) (cap : Option JsNumber) :
    capOf ((encodeDecompressArgs data cap).take
      (min headerLen (encodeDecompressArgs data cap).length)) = some (capBytes cap) := by
  have hlength : (encodeDecompressArgs data cap).length = 4 + data.length := List.length_append
  have htake : (encodeDecompressArgs data cap).take
      (min headerLen (encodeDecompressArgs data cap).length) =
        le32 (toUint32 (cap.getD (some 0))) := by
    rw [hlength, headerLen, Nat.min_eq_left (by omega)]
    exact List.take_left' rfl
  rw [htake, capOf, hdrU32, if_pos (by rw [length_le32]), List.drop_zero,
    List.take_of_length_le (by rw [length_le32]), wordOf_le32, Nat.mod_eq_of_lt (toUint32_lt _)]
  rfl

/-! ## What native asks for -/

section

variable {R : Reader UInt8} {max : Nat}

/-- What the count of the rest ends in. -/
theorem countRest_cases (fuel : Nat) (s : R.State) {total : Nat} (htotal : total ≤ max) :
    (∃ t ≤ max, countRest R max fuel s total = .ok t) ∨ countRest R max fuel s total = .error .io ∨
      countRest R max fuel s total = .error (.exceedsMax max) := by
  induction fuel generalizing s total with
  | zero => exact .inl ⟨total, htotal, rfl⟩
  | succ fuel ih =>
    rw [countRest]
    split
    · exact .inr (.inl rfl)
    · next piece s' _ =>
      split
      · exact .inl ⟨total, htotal, rfl⟩
      · split
        · exact .inr (.inr rfl)
        · next hover => exact ih s' (not_lt.mp hover)

/-- **What is asked for is within the cap**, whatever the decoder does. -/
theorem needed_le {s : R.State} {out : Bytes} {needed : Nat}
    (h : (decompressInto R s max out).1 = .error (.tooSmall needed)) : needed ≤ max := by
  rw [decompressInto] at h
  split at h
  · cases h
  · next written s' _ =>
    dsimp only at h
    split at h
    · cases h
    · next hcap =>
      split at h
      · cases h
      · rcases countRest_cases (max + 1) s' (not_lt.mp hcap) with ⟨t, ht, hcount⟩ | hcount | hcount
        · rw [hcount] at h
          dsimp only at h
          split at h
          · cases h
            exact ht
          · cases h
        · rw [hcount] at h
          cases h
        · rw [hcount] at h
          cases h

/-- A core that asks for no more than the cap. -/
def Core.Bounded (core : Core) : Prop :=
  ∀ data max out needed, (core.into data max out).1 = .error (.tooSmall needed) → needed ≤ max.toNat

theorem bounded_gzipCore (C : StreamCodec) (room : Nat → Nat → Nat) : (gzipCore C room).Bounded :=
  fun _ _ _ _ h => needed_le h

theorem bounded_brotliCore (C : StreamCodec) (room : Nat → Nat → Nat) : (brotliCore C room).Bounded :=
  fun _ _ _ _ h => needed_le h

end

/-! ## What is allocated -/

section

variable {A : Alloc} {maxLength : Nat} {core : Core} {fates : Nat → Fate} {data : Bytes}
variable {cap : Option JsNumber}

theorem executeInto_needed (hcore : core.Bounded) {out : Bytes} {needed : Nat}
    (h : executeInto core (encodeDecompressArgs data cap) out = .error (.tooSmall needed)) :
    needed ≤ capBytes cap := by
  have hcap : (UInt64.ofNat (capBytes cap)).toNat = capBytes cap := by
    have hlt := capBytes_lt cap
    exact UInt64.toNat_ofNat_of_lt' (show capBytes cap < 2 ^ 64 by omega)
  rw [executeInto] at h
  split at h
  · exact nomatch h
  · rw [capOf_encodeArgs] at h
    dsimp only [streamResult] at h
    split at h
    · exact nomatch h
    · next needed' hr =>
      cases h
      exact (hcore _ _ _ _ hr).trans hcap.le
    · exact nomatch h

/-- One attempt allocates what it is called with, if there can be such a buffer. -/
theorem zeroCopyOnce_fst (n : Nat) (args : Bytes) (size : Nat) :
    (zeroCopyOnce A maxLength core fates n args size).1 = if maxLength < size then [] else [size] := by
  rw [zeroCopyOnce]
  split
  · rfl
  · cases fates n with
    | _ => rfl

theorem zeroCopyOnce_needed (hcore : core.Bounded) {n size needed : Nat}
    (h : (zeroCopyOnce A maxLength core fates n (encodeDecompressArgs data cap) size).2 =
      .error (.tooSmall needed)) : needed ≤ capBytes cap := by
  rw [zeroCopyOnce] at h
  split at h
  · exact nomatch h
  · cases hfate : fates n with
    | executed =>
      rw [hfate] at h
      exact executeInto_needed hcore h
    | lost =>
      rw [hfate] at h
      exact nomatch h

theorem afterFirst_tooSmall (args : Bytes) (needed : Nat) :
    (afterFirst A maxLength core fates args (.tooSmall needed)).1 =
      (zeroCopyOnce A maxLength core fates 1 args needed).1 := by
  rw [afterFirst]
  split
  · next heq => rw [heq]
  · next heq => rw [heq]

theorem afterFirst_other (args : Bytes) : (afterFirst A maxLength core fates args .other).1 = [] := by
  rw [afterFirst]
  split
  · rfl
  · rfl

/-- The second destination is within the cap. -/
theorem afterFirst_le {args : Bytes} {err : Failure} {bound n : Nat}
    (herr : ∀ needed, err = .tooSmall needed → needed ≤ bound)
    (hn : n ∈ (afterFirst A maxLength core fates args err).1) : n ≤ bound := by
  cases err with
  | tooSmall needed =>
    rw [afterFirst_tooSmall, zeroCopyOnce_fst] at hn
    split at hn
    · exact nomatch hn
    · rw [List.mem_singleton.mp hn]
      exact herr needed rfl
  | other =>
    rw [afterFirst_other] at hn
    exact nomatch hn

/-- **The destinations of a chain are within the cap** if and only if the first one is, or is not made. -/
theorem zeroCopy_le_iff (hcore : core.Bounded) (first : Nat) :
    (∀ n ∈ (zeroCopy A maxLength core fates (encodeDecompressArgs data cap) first).1, n ≤ capBytes cap) ↔
      first ≤ capBytes cap ∨ maxLength < first := by
  rw [zeroCopy]
  by_cases hlength : maxLength < first
  · rw [if_pos hlength]
    exact iff_of_true (fun n hn => nomatch hn) (.inr hlength)
  · have hfst : (zeroCopyOnce A maxLength core fates 0 (encodeDecompressArgs data cap) first).1 = _ :=
      zeroCopyOnce_fst 0 (encodeDecompressArgs data cap) first
    have hneeded : ∀ needed, (zeroCopyOnce A maxLength core fates 0 (encodeDecompressArgs data cap)
        first).2 = .error (.tooSmall needed) → needed ≤ capBytes cap :=
      fun needed h => zeroCopyOnce_needed hcore h
    rw [if_neg hlength] at hfst ⊢
    rw [or_iff_left hlength]
    -- the first destination is always made; what follows is a length that the core has told
    generalize zeroCopyOnce A maxLength core fates 0 (encodeDecompressArgs data cap) first = once
      at hfst hneeded ⊢
    obtain ⟨allocated, r⟩ := once
    obtain rfl : allocated = [first] := hfst
    constructor
    · intro h
      refine h first ?_
      cases r with
      | ok out => exact List.mem_singleton_self first
      | error err => exact List.mem_append_left _ (List.mem_singleton_self first)
    · rintro hle n hn
      cases r with
      | ok out =>
        rw [List.mem_singleton.mp hn]
        exact hle
      | error err =>
        rcases List.mem_append.mp hn with hn | hn
        · rw [List.mem_singleton.mp hn]
          exact hle
        · exact afterFirst_le (fun needed herr => hneeded needed (congrArg Except.error herr)) hn

end

/-- **What the runtime allocates is within the cap** if and only if the size in the trailer is, or is below
the size that destinations are made for, and for brotli the guess is; or there is no buffer so large. -/
theorem destinations_le_iff (C : StreamCodec) (room : Nat → Nat → Nat) (A : Alloc) (maxLength : Nat)
    (emptyIsNull : Bool) (fates : Nat → Fate) (data : Bytes) (cap : Option JsNumber) :
    ((∀ n ∈ (gzipDecompress C room A maxLength emptyIsNull fates data cap).1, n ≤ capBytes cap) ↔
      castrumGzipIsize (ptrOf emptyIsNull data) < zeroCopyMin ∨
      castrumGzipIsize (ptrOf emptyIsNull data) ≤ capBytes cap ∨
      maxLength < castrumGzipIsize (ptrOf emptyIsNull data)) ∧
    ((∀ n ∈ (brotliDecompress C room A maxLength fates data cap).1, n ≤ capBytes cap) ↔
      brotliCapacityGuess data.length ≤ capBytes cap ∨ maxLength < brotliCapacityGuess data.length) := by
  refine ⟨?_, zeroCopy_le_iff (bounded_brotliCore C room) _⟩
  rw [gzipDecompress]
  by_cases hsmall : castrumGzipIsize (ptrOf emptyIsNull data) < zeroCopyMin
  · rw [if_pos hsmall]
    exact iff_of_true (fun n hn => nomatch hn) (.inl hsmall)
  · rw [if_neg hsmall, or_iff_right hsmall]
    exact zeroCopy_le_iff (bounded_gzipCore C room) _

/-- A stream of nothing whose trailer states 256 MiB. -/
def boastfulGzip : Bytes := [0x1f, 0x8b, 8, 0, 0, 0, 0, 0, 0, 0xff, 3, 0, 0, 0, 0, 0, 0, 0, 0, 0x10]

/-- A destination of 256 MiB, for 20 bytes and the default cap. -/
theorem gzipDecompress_boastful : ¬ ∀ (C : StreamCodec) (room : Nat → Nat → Nat) (A : Alloc)
    (fates : Nat → Fate) (data : Bytes) (cap : Option JsNumber),
    ∀ n ∈ (gzipDecompress C room A (2 ^ 32) true fates data cap).1, n ≤ capBytes cap := by
  intro h
  have hle := h Payload.emptyCodec (fun _ _ => 0) ⟨fun _ cap => List.replicate cap 0, fun _ _ =>
    List.length_replicate⟩ (fun _ => .lost) boastfulGzip none (2 ^ 28) (by decide)
  exact absurd hle (by decide)

end Castrum.Decompress
