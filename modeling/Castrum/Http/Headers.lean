import Castrum.Lib.Output
import Castrum.Util.Wire

/-!
# Castrum — methods and packed headers (`rust/http/method.rs`, `rust/http/headers.rs`)

The header block of a request frame is a count and that many name/value pairs, names behind a 16-bit
length and values behind a 32-bit one. `HeaderRefs::parse` walks the block once and keeps the few
headers the pipeline looks at.

* `HeaderRefs.parse_eq` — the walk is a fold over the pairs of the block;
* `readPairs_packHeaders` — the pairs of a block that was packed from pairs that fit;
* `readPairs_fits` — no block announces more than its fields can hold.
-/

namespace Castrum

/-! ## Methods -/

inductive MethodKind where
  | get | head | post | put | patch | delete | options | other
  deriving DecidableEq, Repr

namespace MethodKind

def fromU8 (v : UInt8) : MethodKind :=
  match v.toNat with
  | 0 => .get
  | 1 => .head
  | 2 => .post
  | 3 => .put
  | 4 => .patch
  | 5 => .delete
  | 6 => .options
  | _ => .other

def mayHaveBody : MethodKind → Bool
  | .post | .put | .patch | .delete => true
  | _ => false

def toU8 : MethodKind → UInt8
  | .get => 0
  | .head => 1
  | .post => 2
  | .put => 3
  | .patch => 4
  | .delete => 5
  | .options => 6
  | .other => 7

/-- The method's bit in a CORS method set. -/
def bit (mk : MethodKind) : UInt16 := (1 : UInt16) <<< mk.toU8.toUInt16

theorem fromU8_toU8 (mk : MethodKind) : fromU8 mk.toU8 = mk := by cases mk <;> rfl

end MethodKind

/-! ## Names without regard to case -/

/-- The first eight bytes as a little-endian word, with zeros where there are none. -/
def loadU64Padded (bytes : Bytes) : Nat := wordOf (bytes.take 8)

/-- The word with the case bit of each byte set. -/
def caseWord (bytes : Bytes) : Nat := loadU64Padded bytes ||| 0x2020202020202020

def asciiEqIgnoreCase (a b : Bytes) : Bool :=
  if a.length ≠ b.length then false
  else if a.length = 0 then true
  else if a.length ≤ 8 then caseWord a = caseWord b
  else if a.length ≤ 16 then caseWord a = caseWord b && caseWord (a.drop 8) = caseWord (b.drop 8)
  else a.map asciiLower = b.map asciiLower

def MethodKind.fromBytesIgnoreCase (bytes : Bytes) : MethodKind :=
  if 7 < bytes.length then .other
  else if asciiEqIgnoreCase bytes (utf8 "GET") then .get
  else if asciiEqIgnoreCase bytes (utf8 "HEAD") then .head
  else if asciiEqIgnoreCase bytes (utf8 "POST") then .post
  else if asciiEqIgnoreCase bytes (utf8 "PUT") then .put
  else if asciiEqIgnoreCase bytes (utf8 "PATCH") then .patch
  else if asciiEqIgnoreCase bytes (utf8 "DELETE") then .delete
  else if asciiEqIgnoreCase bytes (utf8 "OPTIONS") then .options
  else .other

/-! ## The headers that are kept -/

/-- The presence bits of the source are set together with the field they stand for. -/
structure HeaderRefs where
  origin : Option Bytes := none
  cookie : Option Bytes := none
  xff : Option Bytes := none
  xRealIp : Option Bytes := none
  xForwardedProto : Option Bytes := none
  acrm : Option Bytes := none
  acrh : Option Bytes := none
  deriving DecidableEq, Repr

namespace HeaderRefs

def empty : HeaderRefs := {}

/-- One header: kept if it is one of those, dispatched on its first letter and its length. -/
def note (isOptions : Bool) (h : HeaderRefs) (p : Bytes × Bytes) : HeaderRefs :=
  match p.1 with
  | [] => h
  | b :: _ =>
    let first := b ||| 0x20
    let len := p.1.length
    if first = 111 ∧ len = 6 then
      if asciiEqIgnoreCase p.1 (utf8 "origin") then { h with origin := some p.2 } else h
    else if first = 99 ∧ len = 6 then
      if asciiEqIgnoreCase p.1 (utf8 "cookie") then { h with cookie := some p.2 } else h
    else if first = 120 then
      if len = 15 ∧ asciiEqIgnoreCase p.1 (utf8 "x-forwarded-for") then { h with xff := some p.2 }
      else if len = 9 ∧ asciiEqIgnoreCase p.1 (utf8 "x-real-ip") then
        { h with xRealIp := some p.2 }
      else if len = 17 ∧ asciiEqIgnoreCase p.1 (utf8 "x-forwarded-proto") then
        { h with xForwardedProto := some p.2 }
      else h
    else if first = 97 ∧ isOptions then
      if len = 29 ∧ asciiEqIgnoreCase p.1 (utf8 "access-control-request-method") then
        { h with acrm := some p.2 }
      else if len = 30 ∧ asciiEqIgnoreCase p.1 (utf8 "access-control-request-headers") then
        { h with acrh := some p.2 }
      else h
    else h

end HeaderRefs

/-! ## The walk -/

/-- The pair at `pos`, and the position behind it. -/
def readPair (packed : Bytes) (pos : Nat) : Except String ((Bytes × Bytes) × Nat) := do
  let nameLen ← orFail "malformed packed headers" (readU16 packed pos)
  let name ← orFail "malformed packed header name" (readBytes packed (pos + 2) nameLen)
  let pos := pos + 2 + nameLen
  let valueLen ← orFail "malformed packed header value length" (readU32 packed pos)
  let value ← orFail "malformed packed header value" (readBytes packed (pos + 4) valueLen)
  .ok ((name, value), pos + 4 + valueLen)

theorem readPair_eq_ok_iff {packed : Bytes} {pos pos' : Nat} {p : Bytes × Bytes} :
    readPair packed pos = .ok (p, pos') ↔ ∃ nameLen valueLen,
      readU16 packed pos = some nameLen ∧ readBytes packed (pos + 2) nameLen = some p.1 ∧
      readU32 packed (pos + 2 + nameLen) = some valueLen ∧
      readBytes packed (pos + 2 + nameLen + 4) valueLen = some p.2 ∧
      pos' = pos + 2 + nameLen + 4 + valueLen := by
  simp only [readPair, bind_eq_ok_iff, orFail_eq_ok_iff, Except.ok.injEq, Prod.ext_iff]
  constructor
  · rintro ⟨nameLen, hn, name, hname, valueLen, hv, value, hvalue, ⟨rfl, rfl⟩, rfl⟩
    exact ⟨nameLen, valueLen, hn, hname, hv, hvalue, rfl⟩
  · rintro ⟨nameLen, valueLen, hn, hname, hv, hvalue, rfl⟩
    exact ⟨nameLen, hn, p.1, hname, valueLen, hv, p.2, hvalue, ⟨rfl, rfl⟩, rfl⟩

/-- The loop over the announced pairs. -/
def HeaderRefs.parseFrom (packed : Bytes) (isOptions : Bool) :
    Nat → Nat → HeaderRefs → Except String HeaderRefs
  | 0, _, h => .ok h
  | count + 1, pos, h =>
    match readPair packed pos with
    | .error e => .error e
    | .ok (pair, pos) => parseFrom packed isOptions count pos (h.note isOptions pair)

def HeaderRefs.parse (packed : Bytes) (isOptions : Bool) (maxHeaders : Nat) :
    Except String HeaderRefs :=
  match readU16 packed 0 with
  | none => .ok .empty
  | some count =>
    if maxHeaders < count then .error "too many headers"
    else parseFrom packed isOptions count 2 .empty

/-- The pairs that the loop reads. -/
def readPairsFrom (packed : Bytes) : Nat → Nat → Except String (List (Bytes × Bytes))
  | 0, _ => .ok []
  | count + 1, pos =>
    match readPair packed pos with
    | .error e => .error e
    | .ok (pair, pos) => (readPairsFrom packed count pos).map (pair :: ·)

/-- The pairs of a block. -/
def readPairs (packed : Bytes) (maxHeaders : Nat) : Except String (List (Bytes × Bytes)) :=
  match readU16 packed 0 with
  | none => .ok []
  | some count => if maxHeaders < count then .error "too many headers" else readPairsFrom packed count 2

theorem HeaderRefs.parseFrom_eq (packed : Bytes) (isOptions : Bool) (count pos : Nat)
    (h : HeaderRefs) :
    parseFrom packed isOptions count pos h =
      (readPairsFrom packed count pos).map fun ps => ps.foldl (note isOptions) h := by
  induction count generalizing pos h with
  | zero => rfl
  | succ count ih =>
    rw [parseFrom, readPairsFrom]
    cases readPair packed pos with
    | error e => rfl
    | ok r =>
      show parseFrom packed isOptions count r.2 _ =
        Except.map _ (Except.map _ (readPairsFrom packed count r.2))
      rw [ih]
      cases readPairsFrom packed count r.2 <;> rfl

/-- **`HeaderRefs::parse`** notes the pairs of the block one after another. -/
theorem HeaderRefs.parse_eq (packed : Bytes) (isOptions : Bool) (maxHeaders : Nat) :
    parse packed isOptions maxHeaders =
      (readPairs packed maxHeaders).map fun ps => ps.foldl (note isOptions) .empty := by
  unfold parse readPairs
  cases readU16 packed 0 with
  | none => rfl
  | some count =>
    show (if maxHeaders < count then _ else _) = Except.map _ (if maxHeaders < count then _ else _)
    split
    · rfl
    · exact parseFrom_eq packed isOptions count 2 .empty

/-! ## Packing -/

/-- One pair behind its length fields. -/
def packPair (p : Bytes × Bytes) : Bytes := le16 p.1.length ++ (p.1 ++ (le32 p.2.length ++ p.2))

/-- The header block of a frame. -/
def packHeaders (headers : List (Bytes × Bytes)) : Bytes :=
  le16 headers.length ++ headers.flatMap packPair

/-- The name and the value fit their length fields. -/
def PairFits (p : Bytes × Bytes) : Prop := p.1.length < 2 ^ 16 ∧ p.2.length < 2 ^ 32

theorem length_packPair (p : Bytes × Bytes) :
    (packPair p).length = 6 + p.1.length + p.2.length := by
  rw [packPair, List.length_append, List.length_append, List.length_append, length_le16,
    length_le32]
  omega

theorem length_packHeaders_ge_count (headers : List (Bytes × Bytes)) :
    2 + 6 * headers.length ≤ (packHeaders headers).length := by
  rw [packHeaders, List.length_append, length_le16]
  induction headers with
  | nil => exact Nat.le_refl _
  | cons p headers ih =>
    rw [List.flatMap_cons, List.length_append, List.length_cons, length_packPair]
    omega

theorem length_packHeaders_ge_pair {headers : List (Bytes × Bytes)} {p : Bytes × Bytes}
    (h : p ∈ headers) : 8 + p.1.length + p.2.length ≤ (packHeaders headers).length := by
  have hle := (List.sublist_flatten_of_mem (List.mem_map_of_mem (f := packPair) h)).length_le
  rw [length_packPair, ← List.flatMap_def] at hle
  rw [packHeaders, List.length_append, length_le16]
  omega

theorem readPair_append {p : Bytes × Bytes} (hp : PairFits p) (before behind : Bytes) :
    readPair (before ++ (packPair p ++ behind)) before.length =
      .ok (p, before.length + (packPair p).length) := by
  -- each field is read behind what comes before it
  have hname : readU16 (before ++ (packPair p ++ behind)) before.length = some p.1.length := by
    rw [packPair, List.append_assoc, readU16_append, Nat.mod_eq_of_lt hp.1]
  have hnameBytes : readBytes (before ++ (packPair p ++ behind)) (before.length + 2) p.1.length =
      some p.1 := by
    have h := readBytes_append (before ++ le16 p.1.length) p.1 (le32 p.2.length ++ (p.2 ++ behind))
    rw [List.length_append, length_le16] at h
    rw [← h]
    simp only [packPair, List.append_assoc]
  have hvalue : readU32 (before ++ (packPair p ++ behind)) (before.length + 2 + p.1.length) =
      some p.2.length := by
    have h := readU32_append p.2.length (before ++ (le16 p.1.length ++ p.1)) (p.2 ++ behind)
    rw [List.length_append, List.length_append, length_le16, Nat.mod_eq_of_lt hp.2] at h
    rw [← h]
    simp only [packPair, List.append_assoc, Nat.add_assoc]
  have hvalueBytes : readBytes (before ++ (packPair p ++ behind))
      (before.length + 2 + p.1.length + 4) p.2.length = some p.2 := by
    have h := readBytes_append (before ++ (le16 p.1.length ++ (p.1 ++ le32 p.2.length))) p.2 behind
    rw [List.length_append, List.length_append, List.length_append, length_le16, length_le32] at h
    rw [← h]
    simp only [packPair, List.append_assoc, Nat.add_assoc]
  rw [readPair_eq_ok_iff]
  refine ⟨p.1.length, p.2.length, hname, hnameBytes, hvalue, hvalueBytes, ?_⟩
  rw [length_packPair]
  omega

theorem readPairsFrom_append {ps : List (Bytes × Bytes)} (h : ∀ p ∈ ps, PairFits p)
    (before : Bytes) :
    readPairsFrom (before ++ ps.flatMap packPair) ps.length before.length = .ok ps := by
  induction ps generalizing before with
  | nil => rfl
  | cons p ps ih =>
    rw [List.length_cons, readPairsFrom, List.flatMap_cons,
      readPair_append (h p List.mem_cons_self)]
    show Except.map _ (readPairsFrom _ ps.length _) = _
    have hrest := ih (fun q hq => h q (List.mem_cons_of_mem _ hq)) (before ++ packPair p)
    rw [List.append_assoc, List.length_append] at hrest
    rw [hrest]
    rfl

/-- **Reading back a packed block**, where every field holds what was put into it. -/
theorem readPairs_packHeaders {ps : List (Bytes × Bytes)} (hcount : ps.length < 2 ^ 16)
    (h : ∀ p ∈ ps, PairFits p) (maxHeaders : Nat) :
    readPairs (packHeaders ps) maxHeaders =
      if maxHeaders < ps.length then .error "too many headers" else .ok ps := by
  have hread : readU16 (packHeaders ps) 0 = some ps.length := by
    have hfield := readU16_append ps.length [] (ps.flatMap packPair)
    rwa [Nat.mod_eq_of_lt hcount] at hfield
  unfold readPairs
  rw [hread]
  show (if _ then _ else readPairsFrom (le16 ps.length ++ ps.flatMap packPair) ps.length 2) = _
  rw [← length_le16 ps.length, readPairsFrom_append h]

/-! ## What a block can announce -/

theorem readPair_fits {packed : Bytes} {pos pos' : Nat} {p : Bytes × Bytes}
    (h : readPair packed pos = .ok (p, pos')) : PairFits p := by
  obtain ⟨nameLen, valueLen, hn, hname, hv, hvalue, -⟩ := readPair_eq_ok_iff.mp h
  refine ⟨?_, ?_⟩
  · rw [length_readBytes hname]
    exact readWord_lt hn
  · rw [length_readBytes hvalue]
    exact readWord_lt hv

theorem readPair_length {packed : Bytes} {pos pos' : Nat} {p : Bytes × Bytes}
    (h : readPair packed pos = .ok (p, pos')) :
    pos' = pos + (packPair p).length ∧ pos' ≤ packed.length := by
  obtain ⟨nameLen, valueLen, -, hname, -, hvalue, hpos⟩ := readPair_eq_ok_iff.mp h
  have hle := readBytes_le hvalue
  rw [length_packPair, length_readBytes hname, length_readBytes hvalue]
  omega

theorem readPairsFrom_fits {packed : Bytes} {count pos : Nat} {ps : List (Bytes × Bytes)}
    (h : readPairsFrom packed count pos = .ok ps) (hpos : pos ≤ packed.length) :
    ps.length = count ∧ (∀ p ∈ ps, PairFits p) ∧
      pos + (ps.flatMap packPair).length ≤ packed.length := by
  induction count generalizing pos ps with
  | zero =>
    injection h with h
    rw [← h]
    exact ⟨rfl, nofun, hpos⟩
  | succ count ih =>
    rw [readPairsFrom] at h
    -- One pair is read, and the rest from behind it.
    cases hpair : readPair packed pos with
    | error e => rw [hpair] at h; exact nomatch h
    | ok r =>
      rw [hpair] at h
      change (readPairsFrom packed count r.2).map (r.1 :: ·) = _ at h
      cases hrest : readPairsFrom packed count r.2 with
      | error e => rw [hrest] at h; exact nomatch h
      | ok rest =>
        rw [hrest] at h
        injection h with h
        obtain ⟨hend, hle⟩ := readPair_length hpair
        obtain ⟨hlen, hall, hspan⟩ := ih hrest hle
        rw [← h]
        refine ⟨by rw [List.length_cons, hlen], ?_, ?_⟩
        · intro p hp
          rcases List.mem_cons.mp hp with rfl | hp
          · exact readPair_fits hpair
          · exact hall p hp
        · rw [List.flatMap_cons, List.length_append]
          omega

/-- **No block announces more than its fields can hold**, and its pairs lie inside it. -/
theorem readPairs_fits {packed : Bytes} {maxHeaders : Nat} {ps : List (Bytes × Bytes)}
    (h : readPairs packed maxHeaders = .ok ps) :
    ps.length < 2 ^ 16 ∧ (∀ p ∈ ps, PairFits p) ∧
      (ps = [] ∨ (packHeaders ps).length ≤ packed.length) := by
  unfold readPairs at h
  cases hcount : readU16 packed 0 with
  | none =>
    rw [hcount] at h
    injection h with h
    rw [← h]
    exact ⟨by decide, nofun, .inl rfl⟩
  | some count =>
    rw [hcount] at h
    change (if _ then _ else _) = _ at h
    split at h
    · exact nomatch h
    · have htwo : 2 ≤ packed.length := by
        unfold readU16 readWord at hcount
        split at hcount
        · omega
        · exact nomatch hcount
      obtain ⟨hlen, hall, hspan⟩ := readPairsFrom_fits h htwo
      refine ⟨?_, hall, .inr ?_⟩
      · rw [hlen]
        exact readWord_lt hcount
      · rw [packHeaders, List.length_append, length_le16]
        exact hspan

end Castrum
