import Castrum.Json.Escape

/-!
# Castrum — objects of string members (`rust/json/json_ser.rs`)

Cookies and queries are written as JSON objects, one `"name":"value"` after another, each only after
its exact length was found to fit. `writeJsonPair` is the block that the writers share.

* `objectText` — the object of a list of pairs;
* `writeObject_eq` — a writer that puts the pairs one by one puts that object, or reports;
* `objectText_isText` — it is a JSON text, and its members are the pairs.
-/

namespace Castrum

open Ascii

/-! ## The text -/

/-- `"name":"value"`. -/
def memberText (p : Bytes × Bytes) : Bytes :=
  quote :: (escaped p.1 ++ quote :: colon :: quote :: (escaped p.2 ++ [quote]))

/-- The member with what separates it from the `count` before it. -/
def pairText (count : Nat) (p : Bytes × Bytes) : Bytes :=
  (if count = 0 then [] else [comma]) ++ memberText p

def pairsText : Nat → List (Bytes × Bytes) → Bytes
  | _, [] => []
  | count, p :: ps => pairText count p ++ pairsText (count + 1) ps

/-- The object of a list of pairs. -/
def objectText (ps : List (Bytes × Bytes)) : Bytes := lbrace :: (pairsText 0 ps ++ [rbrace])

/-! ## The writers -/

section

variable {ε : Type} (e : ε)

/-- `write_json_escaped`, for a caller that needs no count. -/
def putEscaped (out : Out UInt8) (bytes : Bytes) : Option (Out UInt8) :=
  (writeJsonEscaped out bytes).map Prod.snd

theorem putEscaped_eq (out : Out UInt8) (bytes : Bytes) :
    putEscaped out bytes = out.put (escaped bytes) := by
  rw [putEscaped, writeJsonEscaped_eq, Option.map_map]
  exact Option.map_id'

/-- One pair: nothing is written unless all of it fits. -/
def writeJsonPair (out : Out UInt8) (count : Nat) (name value : Bytes) :
    Except (Failure ε) (Out UInt8) :=
  let needed := (if count = 0 then 0 else 1) + 5 + jsonEscapedLen name + jsonEscapedLen value
  if out.room.length < needed then .error (.fail e)
  else orFail .panic do
    let out ← out.put (if count = 0 then [] else [comma])
    let out ← out.put [quote]
    let out ← putEscaped out name
    let out ← out.put [quote]
    let out ← out.put [colon]
    let out ← out.put [quote]
    let out ← putEscaped out value
    out.put [quote]

/-- The pairs in order, `count` of them being there already. -/
def writePairs : Nat → Out UInt8 → List (Bytes × Bytes) → Except (Failure ε) (Out UInt8)
  | _, out, [] => .ok out
  | count, out, p :: ps =>
    match writeJsonPair e out count p.1 p.2 with
    | .error f => .error f
    | .ok out => writePairs (count + 1) out ps

/-- `out[0] = b'{'`, once there is room for an empty object. -/
def openObject (out : Bytes) : Except (Failure ε) (Out UInt8) :=
  if out.length < 2 then .error (.fail e) else orFail .panic ((Out.new out).put [lbrace])

def closeObject (out : Out UInt8) : Except (Failure ε) (Out UInt8) :=
  if out.bytes.length < out.pos + 1 then .error (.fail e) else orFail .panic (out.put [rbrace])

end

/-! ## Cookies -/

/-- Cut at the first `=`; without one the value is empty. -/
def cutPair (pair : Bytes) : Bytes × Bytes := (cutAt 61 pair).getD (pair, [])

/-- A value in double quotes, without them. -/
def unquote (value : Bytes) : Bytes :=
  if 2 ≤ value.length ∧ value.head? = some quote ∧ value.getLast? = some quote then
    (value.drop 1).dropLast
  else value

def cookiePair (raw : Bytes) : Option (Bytes × Bytes) :=
  let pair := trimAsciiWhitespace raw
  if pair = [] then none
  else
    let name := trimAsciiWhitespace (cutPair pair).1
    let value := trimAsciiWhitespace (cutPair pair).2
    if name = [] then none else some (name, unquote value)

def cookiePairs (input : Bytes) : List (Bytes × Bytes) := (input.splitOn 59).filterMap cookiePair

def cookieJsonIntoSlice (input out : Bytes) (maxPairs : Nat) :
    Except (Failure String) (Out UInt8) := do
  let e := "output buffer too small for cookie JSON"
  let out ← openObject e out
  let out ← writePairs e 0 out ((cookiePairs input).take maxPairs)
  closeObject e out

/-! ## What they write -/

section

variable {ε : Type} (e : ε)

theorem length_pairText (count : Nat) (p : Bytes × Bytes) :
    (pairText count p).length =
      (if count = 0 then 0 else 1) + 5 + jsonEscapedLen p.1 + jsonEscapedLen p.2 := by
  rw [jsonEscapedLen_eq, jsonEscapedLen_eq]
  unfold pairText memberText
  split <;> simp <;> omega

theorem writeJsonPair_eq (out : Out UInt8) (count : Nat) (name value : Bytes) :
    writeJsonPair e out count name value =
      orFail (.fail e) (out.put (pairText count (name, value))) := by
  unfold writeJsonPair
  dsimp only
  rw [← length_pairText count (name, value)]
  by_cases hfit : (pairText count (name, value)).length ≤ out.room.length
  · have hputs : (do
        let out ← out.put (if count = 0 then [] else [comma])
        let out ← out.put [quote]
        let out ← putEscaped out name
        let out ← out.put [quote]
        let out ← out.put [colon]
        let out ← out.put [quote]
        let out ← putEscaped out value
        out.put [quote]) = out.put (pairText count (name, value)) := by
      simp only [Option.bind_eq_bind, putEscaped_eq, Out.put_put]
      unfold pairText memberText
      simp
    rw [if_neg (by omega), hputs, Out.put_of_le hfit]
    rfl
  · rw [if_pos (by omega), Out.put_of_lt (by omega)]
    rfl

theorem writePairs_eq (count : Nat) (out : Out UInt8) (ps : List (Bytes × Bytes)) :
    writePairs e count out ps = orFail (.fail e) (out.put (pairsText count ps)) := by
  induction ps generalizing count out with
  | nil => rw [pairsText, Out.put_nil]; rfl
  | cons p ps ih =>
    rw [writePairs, writeJsonPair_eq, pairsText, ← Out.put_put]
    cases out.put (pairText count (p.1, p.2)) with
    | none => rfl
    | some o => exact ih (count + 1) o

theorem two_le_length_objectText (ps : List (Bytes × Bytes)) : 2 ≤ (objectText ps).length := by
  rw [objectText, List.length_cons, List.length_append, List.length_singleton]
  omega

/-- **A writer of pairs** puts their object, or reports that it does not fit. -/
theorem writeObject_eq (out : Bytes) (ps : List (Bytes × Bytes)) :
    (do
      let out ← openObject e out
      let out ← writePairs e 0 out ps
      closeObject e out) = orFail (.fail e) ((Out.new out).put (objectText ps)) := by
  have hobject : objectText ps = [lbrace] ++ (pairsText 0 ps ++ [rbrace]) := rfl
  unfold openObject
  by_cases hlen : out.length < 2
  · have htwo := two_le_length_objectText ps
    rw [if_pos hlen, Out.put_of_lt (by show out.length < _; omega)]
    rfl
  · rw [if_neg hlen, hobject, ← Out.put_put, Out.put_of_le (by show 1 ≤ out.length; omega)]
    show (do
      let out ← writePairs e 0 _ ps
      closeObject e out) = orFail _ (Option.bind (some _) _)
    rw [writePairs_eq, Option.bind_some, ← Out.put_put]
    cases Out.put _ (pairsText 0 ps) with
    | none => rfl
    | some o =>
      show closeObject e o = orFail _ (o.put [rbrace])
      unfold closeObject
      have hroom : o.bytes.length = o.pos + o.room.length := List.length_append
      by_cases hfit : 1 ≤ o.room.length
      · rw [if_neg (by omega), Out.put_of_le (show [rbrace].length ≤ o.room.length from hfit)]
        rfl
      · rw [if_pos (by omega), Out.put_of_lt (by show o.room.length < 1; omega)]
        rfl

end

theorem cookieJsonIntoSlice_eq (input out : Bytes) (maxPairs : Nat) :
    cookieJsonIntoSlice input out maxPairs =
      orFail (.fail "output buffer too small for cookie JSON")
        ((Out.new out).put (objectText ((cookiePairs input).take maxPairs))) :=
  writeObject_eq _ out _

/-! ## What it says -/

theorem IsStringBody.append {p q : Bytes} (hp : IsStringBody p) (hq : IsStringBody q) :
    IsStringBody (p ++ q) := by
  induction hp with
  | nil => exact hq
  | plain hquote hback hge _ ih => exact .plain hquote hback hge ih
  | escape he _ ih => exact .escape he ih

theorem isStringBody_plain {p : Bytes} (h : ∀ b ∈ p, b ≠ quote ∧ b ≠ backslash ∧ 32 ≤ b) :
    IsStringBody p := by
  induction p with
  | nil => exact .nil
  | cons b p ih =>
    obtain ⟨h₁, h₂, h₃⟩ := h b List.mem_cons_self
    exact .plain h₁ h₂ h₃ (ih fun x hx => h x (List.mem_cons_of_mem _ hx))

theorem hexDigit_plain (n : UInt8) (hn : n < 16) :
    hexDigit n ≠ quote ∧ hexDigit n ≠ backslash ∧ 32 ≤ hexDigit n := by
  have key : ∀ n : Fin 16, hexDigit (UInt8.ofNat n.val) ≠ quote ∧
      hexDigit (UInt8.ofNat n.val) ≠ backslash ∧ 32 ≤ hexDigit (UInt8.ofNat n.val) := by
    decide +kernel
  simpa using key ⟨n.toNat, UInt8.lt_iff_toNat_lt.mp hn⟩

theorem isStringBody_unicodeEscape (b : UInt8) : IsStringBody (unicodeEscape b) := by
  obtain ⟨hhigh, hlow⟩ := nibbles_lt b
  refine .escape (by decide) (isStringBody_plain ?_)
  intro x hx
  simp only [List.mem_cons, List.not_mem_nil, or_false] at hx
  obtain rfl | rfl | rfl | rfl := hx
  · decide
  · decide
  · exact hexDigit_plain _ hhigh
  · exact hexDigit_plain _ hlow

theorem isStringBody_escapeByte (b : UInt8) : IsStringBody (escapeByte b) := by
  have letter : ∀ e : UInt8, isEscape e = true → IsStringBody [backslash, e] :=
    fun e he => .escape he .nil
  unfold escapeByte escapeControl
  split
  · exact letter quote (by decide)
  split
  · exact letter backslash (by decide)
  split
  · exact letter 110 (by decide)
  split
  · exact letter 114 (by decide)
  split
  · exact letter 116 (by decide)
  split
  · exact letter 98 (by decide)
  split
  · exact letter 102 (by decide)
  split
  · exact isStringBody_unicodeEscape b
  · next hq hbs _ _ _ _ _ hge => exact .plain hq hbs (UInt8.not_lt.mp hge) .nil

theorem isStringBody_escaped (bytes : Bytes) : IsStringBody (escaped bytes) := by
  have hall : ∀ f : UInt8 → Bytes, (∀ b, IsStringBody (f b)) → IsStringBody (bytes.flatMap f) := by
    intro f hf
    induction bytes with
    | nil => exact .nil
    | cons b bytes ih => exact (hf b).append ih
  unfold escaped
  split
  · exact hall _ isStringBody_escapeByte
  · exact hall _ isStringBody_unicodeEscape

/-- The member a pair is written as. -/
def memberOf (p : Bytes × Bytes) : Bytes × Json := (escaped p.1, .str (escaped p.2))

theorem member_memberText (p : Bytes × Bytes) :
    Member (JsonText 0) (memberOf p) (memberText p) := by
  have hvalue : JsonText 0 (.str (escaped p.2)) (quote :: (escaped p.2 ++ [quote])) :=
    ⟨rfl, isStringBody_escaped p.2⟩
  have h := Member.mk IsWs.nil (isStringBody_escaped p.1) IsWs.nil IsWs.nil hvalue IsWs.nil
  simpa [memberText, memberOf] using h

/-- Only the first pair has no comma in front. -/
theorem pairsText_of_ne_zero {count : Nat} (h : count ≠ 0) (ps : List (Bytes × Bytes)) :
    pairsText count ps = pairsText 1 ps := by
  induction ps generalizing count with
  | nil => rfl
  | cons p ps ih =>
    rw [pairsText, pairsText, pairText, pairText, if_neg h, if_neg Nat.one_ne_zero,
      ih (Nat.succ_ne_zero count), ih (Nat.succ_ne_zero 1)]

theorem members_pairsText (p : Bytes × Bytes) (ps : List (Bytes × Bytes)) :
    Members (JsonText 0) ((p :: ps).map memberOf) (memberText p ++ pairsText 1 ps) := by
  induction ps generalizing p with
  | nil =>
    rw [pairsText, List.append_nil]
    exact .one (member_memberText p)
  | cons q ps ih =>
    rw [pairsText, pairText, if_neg Nat.one_ne_zero, pairsText_of_ne_zero (Nat.succ_ne_zero 1)]
    exact .cons (member_memberText p) (ih q)

/-- **The object is a JSON text** with the pairs as its members, in order. -/
theorem objectText_isText (ps : List (Bytes × Bytes)) :
    IsText (.obj (ps.map memberOf)) (objectText ps) := by
  refine ⟨1, pairsText 0 ps, rfl, ?_⟩
  cases ps with
  | nil => exact .inl ⟨rfl, IsWs.nil⟩
  | cons p ps => exact .inr (members_pairsText p ps)

end Castrum
