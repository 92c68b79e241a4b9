import Castrum.Ffi.VerifyCookie
import Castrum.Lib.Output
import Castrum.Lib.Read
import Castrum.Util.Wire

/-!
# Castrum — compression over `bun:ffi` (`rust/payload/compress.rs`, `rust/ffi/payload.rs`, `src/native/ffi/build/compress.ts`)

The native cores write into a buffer of the caller and report how many bytes the result takes, also when
it does not fit. The C ABI folds this into one integer, in which `0` is an error; the JavaScript wrapper
allocates, calls, and calls once more with a buffer of the exact size. The codecs themselves are
parameters.

* `compressInto_answers` / `decompressInto_answers` — what the cores report for a stream;
* `growExact_answers` — a result that is not empty is returned, from any first size;
* `growExact_ok` — and an empty one never is.
-/

namespace Castrum

/-! ## The cores -/

/-- A compression crate: the buffers its encoder hands to a writer, and its decoder. -/
structure StreamCodec where
  writes : Nat → Bytes → List Bytes
  Decoder : Reader UInt8
  decoder : Bytes → Decoder.State

/-- The stream that `data` is compressed to. -/
def StreamCodec.stream (C : StreamCodec) (level : Nat) (data : Bytes) : Bytes :=
  (C.writes level data).flatten

/-- `StreamError`. -/
inductive StreamError where
  | io
  | tooSmall (needed : Nat)
  | exceedsMax (cap : Nat)
  deriving DecidableEq, Repr

/-- Copies into a slice up to its end, and counts what does not fit. -/
structure CountingWriter where
  out : Bytes
  pos : Nat
  overflow : Nat

def CountingWriter.write (w : CountingWriter) (buf : Bytes) : CountingWriter :=
  let take := min (w.out.length - w.pos) buf.length
  { out := placed w.out w.pos (buf.take take)
    pos := w.pos + take
    overflow := w.overflow + (buf.length - take) }

/-- `gzip_compress_into` and `brotli_compress_into`. -/
def compressInto (C : StreamCodec) (data : Bytes) (level : Nat) (out : Bytes) :
    Except StreamError Nat × Bytes :=
  let w := (C.writes level data).foldl CountingWriter.write ⟨out, 0, 0⟩
  (if w.overflow > 0 then .error (.tooSmall (w.pos + w.overflow)) else .ok w.pos, w.out)

/-- Read on into a scratch buffer and count, up to the cap. -/
def countRest (R : Reader UInt8) (max : Nat) : Nat → R.State → Nat → Except StreamError Nat
  | 0, _, total => .ok total
  | fuel + 1, s, total =>
    match R.read s 4096 with
    | none => .error .io
    | some (piece, s') =>
      if piece.length = 0 then .ok total
      else if total + piece.length > max then .error (.exceedsMax max)
      else countRest R max fuel s' (total + piece.length)

/-- `decompress_into`. The fuel is what the two loops can take: every read but the last gives a byte. -/
def decompressInto (R : Reader UInt8) (s : R.State) (max : Nat) (out : Bytes) :
    Except StreamError Nat × Bytes :=
  match R.fill out.length out.length s [] with
  | none => (.error .io, out)
  | some (written, s') =>
    let out' := placed out 0 written
    if written.length > max then (.error (.exceedsMax max), out')
    else if written.length < out.length then (.ok written.length, out')
    else
      match countRest R max (max + 1) s' written.length with
      | .error e => (.error e, out')
      | .ok total =>
        if total > written.length then (.error (.tooSmall total), out')
        else (.ok written.length, out')

/-! ## The C ABI -/

/-- The one integer: the written length, the size a too-small buffer would need, or `0`. -/
def neededSize : Except StreamError Nat → Nat
  | .ok w => w
  | .error (.tooSmall needed) => needed
  | .error _ => 0

/-- `compress_to_out!`. -/
def compressToOut (core : Bytes → Bytes → Except StreamError Nat × Bytes) (data out : Option Bytes) :
    Nat × Bytes :=
  match data, out with
  | some data, some out => (neededSize (core data out).1, (core data out).2)
  | _, _ => (0, out.getD [])

def castrumGzipCompress (gzip : StreamCodec) (data : Option Bytes) (level : Nat) (out : Option Bytes) :
    Nat × Bytes :=
  compressToOut (fun data out => compressInto gzip data level out) data out

def castrumGzipDecompress (gzip : StreamCodec) (data : Option Bytes) (max : Nat) (out : Option Bytes) :
    Nat × Bytes :=
  compressToOut (fun data out => decompressInto gzip.Decoder (gzip.decoder data) max out) data out

def castrumBrotliCompress (brotli : StreamCodec) (data : Option Bytes) (quality : Nat)
    (out : Option Bytes) : Nat × Bytes :=
  compressToOut (fun data out => compressInto brotli data quality out) data out

def castrumBrotliDecompress (brotli : StreamCodec) (data : Option Bytes) (max : Nat)
    (out : Option Bytes) : Nat × Bytes :=
  compressToOut (fun data out => decompressInto brotli.Decoder (brotli.decoder data) max out) data out

/-- `castrum_gzip_isize`: the size that the trailer of a gzip stream states, `0` if there is none. -/
def castrumGzipIsize : Option Bytes → Nat
  | none => 0
  | some s =>
    if s.length < 18 then 0
    else if s.getD 0 0 ≠ 0x1f ∨ s.getD 1 0 ≠ 0x8b then 0
    else wordOf (s.drop (s.length - 4))

/-! ## The wrappers -/

/-- `allocOut`: a buffer of the size asked for, holding what was there before. The first argument only
tells one allocation from another. -/
structure Alloc where
  buf : Nat → Nat → Bytes
  length_buf : ∀ n cap, (buf n cap).length = cap

section

variable (A : Alloc)

/-- The loop of `growExact`, for at most `n` rounds. -/
def growLoop (write : Bytes → Nat × Bytes) (max : Nat) (error : String) :
    Nat → Nat → Option (Except String Bytes)
  | 0, _ => none
  | n + 1, cap =>
    let r := write (A.buf n cap)
    if r.1 = 0 then some (.error error)
    else if r.1 ≤ cap then some (.ok (r.2.take r.1))
    else if r.1 > max then some (.error error)
    else growLoop write max error n (min r.1 max)

def growExact (n : Nat) (write : Bytes → Nat × Bytes) (initial cap : Nat) (error : String) :
    Option (Except String Bytes) :=
  growLoop A write cap error n (min (max initial 16) cap)

/-- `MAX_DECOMPRESSED`. -/
def maxDecompressed : Nat := 64 * 1024 * 1024

/-- `COMPRESS_INITIAL_CAP`, `COMPRESS_MAX_CAP` and `COMPRESS_HEADROOM`. -/
def compressInitialCap : Nat := 16 * 1024
def compressMaxCap : Nat := 1024 * 1024
def compressHeadroom : Nat := 64

/-- `DECOMPRESS_FALLBACK_CAP`, `DECOMPRESS_GUESS_MULTIPLIER_GZIP`, `…_BROTLI` and
`DECOMPRESS_MIN_INITIAL`. -/
def decompressFallbackCap : Nat := 4 * 1024 * 1024
def decompressGuessGzip : Nat := 16
def decompressGuessBrotli : Nat := 32
def decompressMinInitial : Nat := 1024

variable (emptyIsNull : Bool)

/-- The two compressing wrappers differ in the native function, the highest level and the error. -/
def ffiCompress (native : Option Bytes → Nat → Option Bytes → Nat × Bytes) (error : String) (n : Nat)
    (data : Bytes) (level : Nat) : Option (Except String Bytes) :=
  growExact A n (fun out => native (ptrOf emptyIsNull data) level (ptrOf emptyIsNull out))
    (min (data.length + compressHeadroom) compressInitialCap)
    (max (data.length * 2 + compressHeadroom) compressMaxCap) error

/-- And the two decompressing ones in the native function, the first size and the error. -/
def ffiDecompress (native : Option Bytes → Nat → Option Bytes → Nat × Bytes)
    (initial : Bytes → Nat → Nat) (error : String) (n : Nat) (data : Bytes) (cap : Option Nat) :
    Option (Except String Bytes) :=
  growExact A n
    (fun out => native (ptrOf emptyIsNull data) (cap.getD maxDecompressed) (ptrOf emptyIsNull out))
    (initial data (cap.getD maxDecompressed)) (cap.getD maxDecompressed) error

def gzipCompress (gzip : StreamCodec) (n : Nat) (data : Bytes) (level : Option Nat) :
    Option (Except String Bytes) :=
  ffiCompress A emptyIsNull (castrumGzipCompress gzip) "gzip compress: output buffer too small" n data
    (min (level.getD 6) 9)

/-- The first size is the trailer's, else a guess. -/
def gzipInitial (data : Bytes) (cap : Nat) : Nat :=
  let isize := castrumGzipIsize (ptrOf emptyIsNull data)
  if isize ≠ 0 then min isize cap else min (data.length * decompressGuessGzip) decompressFallbackCap

def gzipDecompress (gzip : StreamCodec) (n : Nat) (data : Bytes) (cap : Option Nat) :
    Option (Except String Bytes) :=
  ffiDecompress A emptyIsNull (castrumGzipDecompress gzip) (gzipInitial emptyIsNull)
    "gzip decompress: invalid stream or exceeded max decompressed size" n data cap

def brotliCompress (brotli : StreamCodec) (n : Nat) (data : Bytes) (quality : Option Nat) :
    Option (Except String Bytes) :=
  ffiCompress A emptyIsNull (castrumBrotliCompress brotli) "brotli compress: output buffer too small" n
    data (min (quality.getD 5) 11)

def brotliInitial (data : Bytes) : Nat :=
  min (max (data.length * decompressGuessBrotli) decompressMinInitial) decompressFallbackCap

def brotliDecompress (brotli : StreamCodec) (n : Nat) (data : Bytes) (cap : Option Nat) :
    Option (Except String Bytes) :=
  ffiDecompress A emptyIsNull (castrumBrotliDecompress brotli) (fun data _ => brotliInitial data)
    "brotli decompress: invalid stream or exceeded max decompressed size" n data cap

/-- A wrapper that writes into a buffer of the caller: `0` is an error, and so is a size beyond the
buffer. -/
def ffiInto (r : Nat × Bytes) (output : Bytes) (invalid tooSmall : String) : JsResult × Bytes :=
  if r.1 = 0 then (.throws invalid, r.2)
  else if r.1 > output.length then (.throws tooSmall, r.2)
  else (.num r.1, r.2)

/-- A wrapper reports the length of `v`, and the buffer starts with `v`. -/
def HandsOver (r : JsResult × Bytes) (v : Bytes) : Prop :=
  r.1 = .num v.length ∧ r.2.take v.length = v

def gzipCompressInto (gzip : StreamCodec) (data output : Bytes) (level : Option Nat) :
    JsResult × Bytes :=
  ffiInto (castrumGzipCompress gzip (ptrOf emptyIsNull data) (min (level.getD 6) 9)
      (ptrOf emptyIsNull output))
    output "gzip compress: invalid input" "gzip compress: output buffer too small"

def gzipDecompressInto (gzip : StreamCodec) (data output : Bytes) (cap : Option Nat) :
    JsResult × Bytes :=
  ffiInto (castrumGzipDecompress gzip (ptrOf emptyIsNull data) (cap.getD maxDecompressed)
      (ptrOf emptyIsNull output))
    output "gzip decompress: invalid stream or exceeded max decompressed size"
    "gzip decompress: output buffer too small"

def brotliCompressInto (brotli : StreamCodec) (data output : Bytes) (quality : Option Nat) :
    JsResult × Bytes :=
  ffiInto (castrumBrotliCompress brotli (ptrOf emptyIsNull data) (min (quality.getD 5) 11)
      (ptrOf emptyIsNull output))
    output "brotli compress: invalid input" "brotli compress: output buffer too small"

def brotliDecompressInto (brotli : StreamCodec) (data output : Bytes) (cap : Option Nat) :
    JsResult × Bytes :=
  ffiInto (castrumBrotliDecompress brotli (ptrOf emptyIsNull data) (cap.getD maxDecompressed)
      (ptrOf emptyIsNull output))
    output "brotli decompress: invalid stream or exceeded max decompressed size"
    "brotli decompress: output buffer too small"

end

/-! ## The napi entries -/

/-! ## What the C functions report -/

section

/-- `write` reports the length of `v` for every buffer, and `v` itself where it fits. -/
def Answers (write : Bytes → Nat × Bytes) (v : Bytes) : Prop :=
  ∀ out, out ≠ [] →
    (write out).1 = v.length ∧ (v.length ≤ out.length → (write out).2.take v.length = v)

theorem ptrOf_of_ne_nil {emptyIsNull : Bool} {view : Bytes} (h : view ≠ []) :
    ptrOf emptyIsNull view = some view := by
  unfold ptrOf
  rw [if_neg]
  intro hand
  rw [Bool.and_eq_true, List.isEmpty_iff] at hand
  exact h hand.1

theorem take_placed_zero (out text : Bytes) : (placed out 0 text).take text.length = text := by
  have htake := take_placed (Nat.zero_le out.length) text
  rw [Nat.zero_add, List.take_zero, List.nil_append] at htake
  exact htake

namespace CountingWriter

/-- Two writes are one. -/
theorem write_append (w : CountingWriter) (hpos : w.pos ≤ w.out.length) (a b : Bytes) :
    (w.write a).write b = w.write (a ++ b) := by
  have hlength : (placed w.out w.pos (a.take (min (w.out.length - w.pos) a.length))).length =
      w.out.length := by
    apply length_placed
    rw [List.length_take]
    omega
  have htake : (a.take (min (w.out.length - w.pos) a.length)).length =
      min (w.out.length - w.pos) a.length := by
    rw [List.length_take]
    omega
  unfold write
  simp only [hlength, List.length_append, CountingWriter.mk.injEq]
  refine ⟨?_, by omega, by omega⟩
  nth_rewrite 2 [← htake]
  have ha : a.take (min (w.out.length - w.pos) a.length) =
      a.take (min (w.out.length - w.pos) (a.length + b.length)) := by
    rw [List.take_eq_take_iff]
    omega
  have hb : min (w.out.length - (w.pos + min (w.out.length - w.pos) a.length)) b.length =
      min (w.out.length - w.pos) (a.length + b.length) - a.length := by omega
  rw [placed_placed hpos, List.take_append, ha, hb]

theorem foldl_write (w : CountingWriter) (hpos : w.pos ≤ w.out.length) (bufs : List Bytes) :
    bufs.foldl write w = w.write bufs.flatten := by
  induction bufs generalizing w with
  | nil =>
    show w = w.write []
    simp only [write, List.length_nil, Nat.min_zero, List.take_nil, placed_nil, Nat.add_zero,
      Nat.sub_zero]
  | cons buf bufs ih =>
    have hpos' : (w.write buf).pos ≤ (w.write buf).out.length := by
      have hlength : (w.write buf).out.length = w.out.length := by
        apply length_placed
        rw [List.length_take]
        omega
      rw [hlength]
      show w.pos + min (w.out.length - w.pos) buf.length ≤ w.out.length
      omega
    rw [List.foldl_cons, ih _ hpos', write_append w hpos, List.flatten_cons]

end CountingWriter

/-- A stream that is compressed is reported with its length, also where it does not fit. -/
theorem compressInto_answers (C : StreamCodec) (data : Bytes) (level : Nat) :
    Answers (fun out => (neededSize (compressInto C data level out).1, (compressInto C data level out).2))
      (C.stream level data) := by
  intro out _
  have hfold : (C.writes level data).foldl CountingWriter.write ⟨out, 0, 0⟩ =
      (⟨out, 0, 0⟩ : CountingWriter).write (C.stream level data) :=
    CountingWriter.foldl_write _ (Nat.zero_le _) _
  simp only [compressInto, hfold, CountingWriter.write, Nat.zero_add, Nat.sub_zero]
  constructor
  · split
    · show min out.length _ + (_ - min out.length _) = _
      omega
    · show min out.length _ = _
      omega
  · intro hfits
    rw [Nat.min_eq_right hfits, List.take_length]
    exact take_placed_zero out (C.stream level data)

/-- Counting the rest: what is beyond the cap comes before a failure behind it. -/
theorem countRest_yields {R : Reader UInt8} {s : R.State} {p : Bytes} {fails : Bool}
    (h : R.Yields s p fails) {max total fuel : Nat} (htotal : total ≤ max) (hfuel : max < total + fuel) :
    countRest R max fuel s total =
      if total + p.length > max then .error (.exceedsMax max)
      else if fails then .error .io
      else .ok (total + p.length) := by
  induction fuel generalizing s p total with
  | zero => omega
  | succ fuel ih =>
    rw [countRest]
    cases h.read (show 0 < 4096 by decide) with
    | fails hread =>
      rw [hread, if_neg (by rw [List.length_nil]; omega), if_pos rfl]
    | ends s' hread hrest =>
      rw [hread, if_neg (by rw [List.length_nil]; omega)]
      rfl
    | piece piece rest s' _ hne hle hread hrest =>
      rw [hread]
      dsimp only
      rw [if_neg hne, List.length_append]
      by_cases hover : total + piece.length > max
      · rw [if_pos hover, if_pos (by omega)]
      · rw [if_neg hover, ih hrest (by omega) (by omega), Nat.add_assoc]

/-- **What `decompress_into` does with a stream**: the bytes, or their number where they do not fit, or an
error where the stream fails or is beyond the cap. -/
theorem decompressInto_cases {R : Reader UInt8} {s : R.State} {p : Bytes} {fails : Bool}
    (h : R.Yields s p fails) (max : Nat) (out : Bytes) :
    (fails = false ∧ p.length ≤ max ∧ p.length ≤ out.length ∧
      decompressInto R s max out = (.ok p.length, placed out 0 p)) ∨
    (fails = false ∧ p.length ≤ max ∧ out.length < p.length ∧
      (decompressInto R s max out).1 = .error (.tooSmall p.length)) ∨
    ((fails = true ∨ max < p.length) ∧ ∃ e, (decompressInto R s max out).1 = .error e ∧
      ∀ needed, e ≠ .tooSmall needed) := by
  have hroom : out.length ≤ ([] : Bytes).length + out.length := by simp
  have hfill := Reader.fill_yields h hroom
  rw [List.length_nil, Nat.sub_zero, List.nil_append] at hfill
  have hlength : (p.take out.length).length = min out.length p.length := List.length_take
  rcases hfill with ⟨hfails, -, hfill⟩ | ⟨hfits, s', hfill, hrest⟩
  · rw [decompressInto, hfill]
    exact .inr (.inr ⟨.inl hfails, .io, rfl, nofun⟩)
  · rw [decompressInto, hfill]
    dsimp only
    by_cases hcap : (p.take out.length).length > max
    · rw [if_pos hcap]
      exact .inr (.inr ⟨.inr (by omega), .exceedsMax max, rfl, nofun⟩)
    · rw [if_neg hcap]
      by_cases hinside : p.length < out.length
      · -- the stream ends inside of the buffer
        have hfalse : fails = false := by
          by_contra hcon
          exact absurd (hfits (Bool.eq_true_of_not_eq_false hcon)) (by omega)
        rw [List.take_of_length_le hinside.le] at hcap ⊢
        rw [if_pos hinside]
        exact .inl ⟨hfalse, by omega, hinside.le, rfl⟩
      · have hfull : (p.take out.length).length = out.length := by omega
        have hdrop : out.length + (p.drop out.length).length = p.length := by
          rw [List.length_drop]
          omega
        have hcount := countRest_yields hrest (show out.length ≤ max by omega)
          (show max < out.length + (max + 1) by omega)
        rw [hdrop] at hcount
        rw [if_neg (by omega), hfull, hcount]
        by_cases hover : p.length > max
        · rw [if_pos hover]
          exact .inr (.inr ⟨.inr hover, .exceedsMax max, rfl, nofun⟩)
        · rw [if_neg hover]
          cases fails with
          | true => exact .inr (.inr ⟨.inl rfl, .io, rfl, nofun⟩)
          | false =>
            rw [if_neg Bool.false_ne_true]
            dsimp only
            by_cases hmore : p.length > out.length
            · rw [if_pos hmore]
              exact .inr (.inl ⟨rfl, by omega, hmore, rfl⟩)
            · have heq : p.length = out.length := by omega
              rw [if_neg hmore, ← heq, List.take_length]
              exact .inl ⟨rfl, by omega, by omega, rfl⟩

/-- **A stream within the cap is reported with the length of what it holds**, also where that does not
fit. -/
theorem decompressInto_answers {R : Reader UInt8} {s : R.State} {p : Bytes} (h : R.Delivers s p)
    {max : Nat} (hmax : p.length ≤ max) :
    Answers (fun out => (neededSize (decompressInto R s max out).1, (decompressInto R s max out).2))
      p := by
  intro out _
  dsimp only
  rcases decompressInto_cases h.yields max out with ⟨-, -, -, heq⟩ | ⟨-, -, hlt, heq⟩ | ⟨hbad, -⟩
  · rw [heq]
    exact ⟨rfl, fun _ => take_placed_zero out p⟩
  · rw [heq]
    exact ⟨rfl, fun hle => absurd hle (by omega)⟩
  · rcases hbad with hfails | hover
    · exact nomatch hfails
    · omega

/-- The C function passes on what its core reports, for a buffer that is not empty. -/
theorem compressToOut_answers {core : Bytes → Bytes → Except StreamError Nat × Bytes} {data v : Bytes}
    {emptyIsNull : Bool} (hdata : data ≠ [])
    (h : Answers (fun out => (neededSize (core data out).1, (core data out).2)) v) :
    Answers (fun out => compressToOut core (ptrOf emptyIsNull data) (ptrOf emptyIsNull out)) v := by
  intro out hout
  simp only [ptrOf_of_ne_nil hdata, ptrOf_of_ne_nil hout, compressToOut]
  exact h out hout

/-! ## What the wrappers return -/

variable (A : Alloc) {write : Bytes → Nat × Bytes} {v : Bytes}

theorem Alloc.buf_ne_nil {n cap : Nat} (h : 0 < cap) : A.buf n cap ≠ [] := by
  intro hnil
  have hlength := A.length_buf n cap
  rw [hnil, List.length_nil] at hlength
  omega

/-- One round: an empty result is an error, one that fits is returned, and one that does not is asked for
again. -/
theorem growLoop_succ (h : Answers write v) {n size max : Nat} (hsize : 0 < size) (error : String) :
    growLoop A write max error (n + 1) size =
      if v = [] then some (.error error)
      else if v.length ≤ size then some (.ok v)
      else if v.length > max then some (.error error)
      else growLoop A write max error n (min v.length max) := by
  obtain ⟨hlength, hfits⟩ := h _ (A.buf_ne_nil (n := n) hsize)
  rw [A.length_buf] at hfits
  rw [growLoop, hlength]
  by_cases hnil : v = []
  · rw [if_pos hnil, if_pos (by rw [hnil]; rfl)]
  · rw [if_neg hnil, if_neg (by rwa [List.length_eq_zero_iff])]
    split
    · next hle => rw [hfits hle]
    · rfl

/-- **A result that is not empty is returned**, from any first size, in the second round at the latest. -/
theorem growExact_answers (h : Answers write v) (hv : v ≠ []) {cap : Nat} (hcap : v.length ≤ cap)
    (n initial : Nat) (error : String) : growExact A (n + 2) write initial cap error = some (.ok v) := by
  have hpos : 0 < v.length := List.length_pos_of_ne_nil hv
  rw [growExact, growLoop_succ A h (by omega), if_neg hv]
  split
  · rfl
  · rw [if_neg (by omega), growLoop_succ A h (by omega), if_neg hv, Nat.min_eq_left hcap,
      if_pos (Nat.le_refl _)]

/-- **What is returned is the result, and never an empty one.** -/
theorem growExact_ok (h : Answers write v) {cap : Nat} (hcap : 0 < cap) {n initial : Nat}
    {error : String} {z : Bytes} (hz : growExact A n write initial cap error = some (.ok z)) :
    z = v ∧ v ≠ [] := by
  have hloop : ∀ n size, 0 < size → growLoop A write cap error n size = some (.ok z) →
      z = v ∧ v ≠ [] := by
    intro n
    induction n with
    | zero =>
      intro size _ hz
      cases hz
    | succ n ih =>
      intro size hsize hz
      rw [growLoop_succ A h hsize] at hz
      split at hz
      · cases hz
      · next hv =>
        split at hz
        · exact ⟨(Except.ok.inj (Option.some.inj hz)).symm, hv⟩
        · split at hz
          · cases hz
          · have hpos : 0 < v.length := List.length_pos_of_ne_nil hv
            exact ih (min v.length cap) (by omega) hz
  exact hloop n _ (by omega) hz

/-- The wrapper that writes into a buffer of the caller returns the length of the result, where that is not
empty and fits. -/
theorem ffiInto_answers (h : Answers write v) (hv : v ≠ []) {output : Bytes}
    (hfits : v.length ≤ output.length) (invalid tooSmall : String) :
    HandsOver (ffiInto (write output) output invalid tooSmall) v := by
  have hpos : 0 < v.length := List.length_pos_of_ne_nil hv
  have hout : output ≠ [] := List.ne_nil_of_length_pos (by omega)
  obtain ⟨hlength, htake⟩ := h output hout
  rw [ffiInto, hlength, if_neg (by omega), if_neg (by omega)]
  exact ⟨rfl, htake hfits⟩

end

end Castrum
