import Castrum.Ffi.Compress

/-!
# Castrum — two ways to decompress (`rust/payload/compress.rs`)

`decompress_bytes` reads a stream into a vector, one byte beyond the cap at most; `decompress_into` reads
it into a buffer of the caller, and counts what does not fit. The limit of the first is the cap plus one,
in 64 bits, and the profile that is shipped checks for overflow.

* `decompressBytes_cases` — what comes back in a vector;
* `Agrees` — what the two say of each other;
* `decompress_agrees_iff` — they agree on every stream, for every cap but one.
-/

namespace Castrum.Payload

/-- A decompression into a vector; `room` is how the vector grows. -/
def decompressBytes (R : Reader UInt8) (room : Nat → Nat) (max : UInt64) (s : R.State) :
    Except (Failure StreamError) Bytes :=
  -- `max as u64 + 1`
  if 2 ^ 64 ≤ max.toNat + 1 then .error .panic
  else
    match R.readToEnd room (max.toNat + 1) (max.toNat + 1) s [] with
    | none => .error (.fail .io)
    | some out => if out.length > max.toNat then .error (.fail (.exceedsMax max.toNat)) else .ok out

section

variable (C : StreamCodec) (room : Nat → Nat → Nat)

/-- The vector starts with a capacity, from which on `room` lets it grow. -/
def gzipDecompressBytes (data : Bytes) (max : UInt64) : Except (Failure StreamError) Bytes :=
  decompressBytes C.Decoder (room (min (data.length * 8) (Max.max max.toNat 64))) max (C.decoder data)

def brotliDecompressBytes (data : Bytes) (max : UInt64) : Except (Failure StreamError) Bytes :=
  decompressBytes C.Decoder (room (min (data.length * 16) (Max.max max.toNat 64))) max (C.decoder data)

def gzipDecompressInto (data : Bytes) (max : UInt64) (out : Bytes) : Except StreamError Nat × Bytes :=
  decompressInto C.Decoder (C.decoder data) max.toNat out

def brotliDecompressInto (data : Bytes) (max : UInt64) (out : Bytes) : Except StreamError Nat × Bytes :=
  decompressInto C.Decoder (C.decoder data) max.toNat out

end

/-- The two agree for a buffer: on a result that fits, on the length of one that does not, and on what is
an error. A buffer of the length that was reported is then large enough. -/
structure Agrees (bytes : Except (Failure StreamError) Bytes)
    (into : Bytes → Except StreamError Nat × Bytes) (out : Bytes) : Prop where
  ok : ∀ n, (into out).1 = .ok n ↔ ∃ v, bytes = .ok v ∧ v.length = n ∧ n ≤ out.length
  result : ∀ n v, (into out).1 = .ok n → bytes = .ok v → (into out).2.take n = v
  tooSmall : ∀ needed, (into out).1 = .error (.tooSmall needed) ↔
    ∃ v, bytes = .ok v ∧ v.length = needed ∧ out.length < needed
  error : (∃ e, (into out).1 = .error e ∧ ∀ needed, e ≠ .tooSmall needed) ↔
    ∃ e, bytes = .error (.fail e)
  retry : ∀ needed, (into out).1 = .error (.tooSmall needed) → ∀ out' : Bytes, out'.length = needed →
    (into out').1 = .ok needed

section

variable {R : Reader UInt8} {s : R.State} {p : Bytes} {fails : Bool} {max : UInt64}

/-- **What comes back in a vector**: the bytes of a stream that ends within the cap, else an error. -/
theorem decompressBytes_cases (h : R.Yields s p fails) (room : Nat → Nat)
    (hmax : max.toNat + 1 < 2 ^ 64) :
    (fails = false ∧ p.length ≤ max.toNat ∧ decompressBytes R room max s = .ok p) ∨
    ((fails = true ∨ max.toNat < p.length) ∧ ∃ e, decompressBytes R room max s = .error (.fail e)) := by
  have hread := Reader.readToEnd_yields room h
    (show max.toNat + 1 ≤ ([] : Bytes).length + (max.toNat + 1) by rw [List.length_nil]; omega)
  rw [List.length_nil, Nat.sub_zero, List.nil_append] at hread
  rw [decompressBytes, if_neg (by omega), hread]
  by_cases hfails : fails = true ∧ p.length < max.toNat + 1
  · rw [if_pos hfails]
    exact .inr ⟨.inl hfails.1, .io, rfl⟩
  · rw [if_neg hfails]
    dsimp only
    have hlength : (p.take (max.toNat + 1)).length = min (max.toNat + 1) p.length := List.length_take
    by_cases hover : max.toNat < p.length
    · rw [if_pos (by omega)]
      exact .inr ⟨.inr hover, .exceedsMax max.toNat, rfl⟩
    · rw [if_neg (by omega), List.take_of_length_le (by omega)]
      refine .inl ⟨?_, by omega, rfl⟩
      by_contra hcon
      exact hfails ⟨Bool.eq_true_of_not_eq_false hcon, by omega⟩

/-- A buffer of the exact size is large enough. -/
theorem decompressInto_exact (h : R.Yields s p false) {cap : Nat} (hcap : p.length ≤ cap) {out : Bytes}
    (hout : out.length = p.length) : (decompressInto R s cap out).1 = .ok p.length := by
  rcases decompressInto_cases h cap out with ⟨-, -, -, hinto⟩ | ⟨-, -, hlt, -⟩ | ⟨hbad, -⟩
  · rw [hinto]
  · omega
  · rcases hbad with hfails | hover
    · exact nomatch hfails
    · omega

/-- A result that fits. -/
theorem Agrees.of_fits {into : Bytes → Except StreamError Nat × Bytes} {out : Bytes}
    (hfits : p.length ≤ out.length) (hinto : into out = (.ok p.length, placed out 0 p)) :
    Agrees (.ok p) into out := by
  refine ⟨fun n => ?_, fun n v hn hv => ?_, fun needed => ?_, ?_, fun needed hn => ?_⟩
  · rw [hinto]
    constructor
    · intro hn
      cases hn
      exact ⟨p, rfl, rfl, hfits⟩
    · rintro ⟨v, hv, rfl, -⟩
      cases hv
      rfl
  · rw [hinto] at hn ⊢
    cases hn
    cases hv
    exact take_placed_zero out p
  · rw [hinto]
    refine iff_of_false nofun ?_
    rintro ⟨v, hv, rfl, hlt⟩
    cases hv
    omega
  · rw [hinto]
    refine iff_of_false ?_ ?_
    · rintro ⟨e, he, -⟩
      cases he
    · rintro ⟨e, he⟩
      cases he
  · rw [hinto] at hn
    cases hn

/-- A result that does not fit: its length is what the next buffer needs. -/
theorem Agrees.of_tooSmall {into : Bytes → Except StreamError Nat × Bytes} {out : Bytes}
    (hlt : out.length < p.length) (hinto : (into out).1 = .error (.tooSmall p.length))
    (hretry : ∀ out' : Bytes, out'.length = p.length → (into out').1 = .ok p.length) :
    Agrees (.ok p) into out := by
  -- The four results of a call: written, too small, failed, and a second call of the size asked
  -- for.
  refine ⟨fun n => ?_, fun n v hn _ => ?_, fun needed => ?_, ?_, fun needed hn out' hout => ?_⟩
  · rw [hinto]
    refine iff_of_false nofun ?_
    rintro ⟨v, hv, rfl, hfits⟩
    cases hv
    omega
  · rw [hinto] at hn
    cases hn
  · rw [hinto]
    constructor
    · intro hn
      cases hn
      exact ⟨p, rfl, rfl, hlt⟩
    · rintro ⟨v, hv, rfl, -⟩
      cases hv
      rfl
  · rw [hinto]
    refine iff_of_false ?_ ?_
    · rintro ⟨e, he, hne⟩
      cases he
      exact hne _ rfl
    · rintro ⟨e, he⟩
      cases he
  · rw [hinto] at hn
    cases hn
    exact hretry out' hout

/-- No result. -/
theorem Agrees.of_error {into : Bytes → Except StreamError Nat × Bytes} {out : Bytes}
    {e e' : StreamError} (hinto : (into out).1 = .error e') (hne : ∀ needed, e' ≠ .tooSmall needed) :
    Agrees (.error (.fail e)) into out := by
  refine ⟨fun n => ?_, fun n v hn _ => ?_, fun needed => ?_, ?_, fun needed hn => ?_⟩
  · rw [hinto]
    refine iff_of_false nofun ?_
    rintro ⟨v, hv, -⟩
    cases hv
  · rw [hinto] at hn
    cases hn
  · rw [hinto]
    refine iff_of_false (fun hn => ?_) ?_
    · cases hn
      exact hne needed rfl
    · rintro ⟨v, hv, -⟩
      cases hv
  · exact iff_of_true ⟨e', hinto, hne⟩ ⟨e, rfl⟩
  · rw [hinto] at hn
    cases hn
    exact absurd rfl (hne needed)

/-- **The two agree** wherever the limit does not overflow. -/
theorem agrees (h : R.Yields s p fails) (room : Nat → Nat) (hmax : max.toNat + 1 < 2 ^ 64) (out : Bytes) :
    Agrees (decompressBytes R room max s) (decompressInto R s max.toNat) out := by
  have hinto := decompressInto_cases h max.toNat out
  -- both read the same stream, so that they come to the same of the three ends
  rcases decompressBytes_cases h room hmax with ⟨rfl, hle, hbytes⟩ | ⟨hbad, e, hbytes⟩
  · rw [hbytes]
    rcases hinto with ⟨-, -, hfits, hinto⟩ | ⟨-, -, hlt, hinto⟩ | ⟨hfails | hover, -⟩
    · exact .of_fits hfits hinto
    · exact .of_tooSmall hlt hinto fun out' hout => decompressInto_exact h hle hout
    · cases hfails
    · omega
  · rw [hbytes]
    have hgood : ¬ (fails = false ∧ p.length ≤ max.toNat) := by
      rintro ⟨rfl, hle⟩
      rcases hbad with hfails | hover
      · cases hfails
      · omega
    rcases hinto with ⟨hfails, hle, -⟩ | ⟨hfails, hle, -⟩ | ⟨-, e', hinto, hne⟩
    · exact absurd ⟨hfails, hle⟩ hgood
    · exact absurd ⟨hfails, hle⟩ hgood
    · exact .of_error hinto hne

/-- The two forms of each codec agree on its streams. -/
def CoresAgree (max : UInt64) : Prop :=
  ∀ (C : StreamCodec) (data p : Bytes) (fails : Bool), C.Decoder.Yields (C.decoder data) p fails →
    ∀ (room : Nat → Nat → Nat) (out : Bytes),
      Agrees (gzipDecompressBytes C room data max) (gzipDecompressInto C data max) out ∧
      Agrees (brotliDecompressBytes C room data max) (brotliDecompressInto C data max) out

/-- The gzip stream of nothing. -/
def emptyGzip : Bytes := [0x1f, 0x8b, 8, 0, 0, 0, 0, 0, 0, 0xff, 3, 0, 0, 0, 0, 0, 0, 0, 0, 0]

/-- A codec as it decodes that stream. -/
def emptyCodec : StreamCodec where
  writes _ _ := [emptyGzip]
  Decoder := Reader.slice UInt8
  decoder _ := []

theorem emptyCodec_yields : emptyCodec.Decoder.Yields (emptyCodec.decoder emptyGzip) [] false :=
  (Reader.slice_delivers []).yields

/-- With the largest cap the limit overflows: the stream fits into any buffer, and the vector panics. -/
theorem not_agrees_largest (room : Nat → Nat → Nat) (out : Bytes) :
    ¬ Agrees (gzipDecompressBytes emptyCodec room emptyGzip (UInt64.ofNat (2 ^ 64 - 1)))
      (gzipDecompressInto emptyCodec emptyGzip (UInt64.ofNat (2 ^ 64 - 1))) out := by
  intro h
  rcases decompressInto_cases emptyCodec_yields (UInt64.ofNat (2 ^ 64 - 1)).toNat out with
    ⟨-, -, -, hinto⟩ | ⟨-, -, hlt, -⟩ | ⟨hbad, -⟩
  · obtain ⟨v, hv, -⟩ := (h.ok 0).mp (congrArg Prod.fst hinto)
    exact nomatch hv
  · exact absurd hlt (Nat.not_lt_zero _)
  · rcases hbad with hfails | hover
    · exact nomatch hfails
    · exact absurd hover (Nat.not_lt_zero _)

theorem decompress_panics : ¬ ∀ max, CoresAgree max := fun h =>
  not_agrees_largest (fun _ _ => 0) []
    (h _ emptyCodec emptyGzip [] false emptyCodec_yields (fun _ _ => 0) []).1

/-- **The two ways agree on every stream, for every cap but the largest**: there the one that allocates
panics. -/
theorem decompress_agrees_iff (max : UInt64) :
    CoresAgree max ↔ max ≠ UInt64.ofNat (2 ^ 64 - 1) := by
  constructor
  · rintro h rfl
    exact not_agrees_largest (fun _ _ => 0) []
      (h emptyCodec emptyGzip [] false emptyCodec_yields (fun _ _ => 0) []).1
  · intro hne C data p fails h room out
    have hmax : max.toNat + 1 < 2 ^ 64 := by
      have hlt := max.toNat_lt
      by_contra hcon
      refine hne (UInt64.toNat_inj.mp ?_)
      rw [UInt64.toNat_ofNat_of_lt' (show 2 ^ 64 - 1 < 2 ^ 64 by decide)]
      omega
    exact ⟨agrees h _ hmax out, agrees h _ hmax out⟩

end

end Castrum.Payload
