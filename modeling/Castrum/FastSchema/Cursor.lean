import Castrum.Util.Bytes
import Castrum.Json.Grammar

/-!
# Castrum — the byte cursor (`rust/json/fast_schema/cursor.rs`)

A cursor walks raw JSON bytes. Its operations return the cursor they leave behind, on failure
too: a failed `raw_string` has eaten its opening quote, a failed `number` the part it scanned. A
slice carries the address of its first byte (`ptr`), which the derive capture compares.

What remains at a cursor is `rest`; every operation is specified by what it takes off it.

* `Cursor.Eats` — a cursor after consuming exactly the given bytes, closed under composition;
* `rawString_sound` / `rawString_complete`, `number_sound` / `number_complete` — the two token
  scanners are exact;
* `skipWs_spec`, `eat_eq_true`, `eatToken_eq_true` — the others.
-/

namespace Castrum

open Ascii

/-- A cursor over raw JSON bytes; `ptr` is the address of `data[0]`. -/
structure Cursor where
  data : Bytes
  pos : Nat
  ptr : Nat
  deriving DecidableEq

/-- Maximum JSON nesting depth accepted by the fast path (`MAX_DEPTH`). -/
def maxDepth : Nat := 128

namespace Cursor

def new (data : Bytes) (ptr : Nat) : Cursor := ⟨data, 0, ptr⟩

/-- The bytes not yet consumed. -/
def rest (c : Cursor) : Bytes := c.data.drop c.pos

def adv (c : Cursor) (n : Nat) : Cursor := { c with pos := c.pos + n }

/-- `&data[start..pos]` as a fresh cursor. -/
def slice (c : Cursor) (start : Nat) : Cursor :=
  new ((c.data.take c.pos).drop start) (c.ptr + start)

def wsRun : Bytes → Nat
  | b :: r => if isWs b then wsRun r + 1 else 0
  | [] => 0

def skipWs (c : Cursor) : Cursor := c.adv (wsRun c.rest)

def peek (c : Cursor) : Option UInt8 := c.rest.head?

def eat (c : Cursor) (b : UInt8) : Bool × Cursor :=
  if c.peek = some b then (true, c.adv 1) else (false, c)

def eatToken (c : Cursor) (tok : Bytes) : Bool × Cursor :=
  if c.rest.take tok.length = tok then (true, c.adv tok.length) else (false, c)

/-- The loop of `raw_string` after the opening quote: the inner bytes, or `none` at a raw control
byte, a bad escape letter or the end of the input. The `memchr2` bulk scan is byte by byte here. -/
def scanBody : Bytes → Option Bytes
  | [] => none
  | quote :: _ => some []
  | backslash :: e :: r => if isEscape e then (scanBody r).map (backslash :: e :: ·) else none
  | [backslash] => none
  | b :: r => if b < 32 then none else (scanBody r).map (b :: ·)

/-- Parse a string token; the raw inner slice, escapes checked but not decoded (`raw_string`). -/
def rawString (c : Cursor) : Option Bytes × Cursor :=
  match c.eat quote with
  | (false, c) => (none, c)
  | (true, c) =>
    match scanBody c.rest with
    | none => (none, c)
    | some inner => (some inner, c.adv (inner.length + 1))

def digitRun : Bytes → Nat
  | b :: r => if isDigit b then digitRun r + 1 else 0
  | [] => 0

/-! The three parts of `number`, over what is left: whether the scan goes through, how far it got,
and whether the token has integer syntax. -/

def scanExp (s : Bytes) (isInt : Bool) : Bool × Nat × Bool :=
  match s with
  | b :: r =>
    if b = lowerE ∨ b = upperE then
      let sign := if r.head? = some plus ∨ r.head? = some minus then 1 else 0
      let n := digitRun (r.drop sign)
      (n ≠ 0, 1 + sign + n, false)
    else (true, 0, isInt)
  | [] => (true, 0, isInt)

def scanFrac (s : Bytes) : Bool × Nat × Bool :=
  match s with
  | dot :: r =>
    let n := digitRun r
    if n = 0 then (false, 1, false)
    else
      let e := scanExp (r.drop n) false
      (e.1, 1 + n + e.2.1, e.2.2)
  | _ => scanExp s true

def scanNumber (s : Bytes) : Bool × Nat × Bool :=
  let m := if s.head? = some minus then 1 else 0
  match s.drop m with
  | zero :: r =>
    let f := scanFrac r
    (f.1, m + 1 + f.2.1, f.2.2)
  | b :: r =>
    if isDigit b then
      let n := digitRun r
      let f := scanFrac (r.drop n)
      (f.1, m + 1 + n + f.2.1, f.2.2)
    else (false, m, true)
  | [] => (false, m, true)

/-- Parse a number token and say whether it has integer syntax (`number`). `str::parse::<f64>`
never fails on a number token, so the token stands for its value here and callers read it. -/
def number (c : Cursor) : Option (Bytes × Bool) × Cursor :=
  let r := scanNumber c.rest
  if r.1 then (some (c.rest.take r.2.1, r.2.2), c.adv r.2.1) else (none, c.adv r.2.1)

/-! ## Consuming bytes -/

/-- `c'` is `c` after consuming exactly `s`. -/
def Eats (c : Cursor) (s : Bytes) (c' : Cursor) : Prop :=
  c.rest = s ++ c'.rest ∧ c' = c.adv s.length

theorem rest_adv (c : Cursor) (n : Nat) : (c.adv n).rest = c.rest.drop n := by
  simp only [rest, adv, List.drop_drop]

theorem adv_adv (c : Cursor) (n k : Nat) : (c.adv n).adv k = c.adv (n + k) := by
  simp only [adv, Nat.add_assoc]

theorem Eats.of_rest {c : Cursor} {s t : Bytes} (h : c.rest = s ++ t) :
    Eats c s (c.adv s.length) := by
  refine ⟨?_, rfl⟩
  rw [rest_adv, h, List.drop_left]

theorem Eats.rest_eq {c c' : Cursor} {s t : Bytes} (h : Eats c s c') (hr : c.rest = s ++ t) :
    c'.rest = t := by
  rw [h.1] at hr
  exact List.append_cancel_left hr

theorem Eats.trans {c c' c'' : Cursor} {s s' : Bytes} (h : Eats c s c') (h' : Eats c' s' c'') :
    Eats c (s ++ s') c'' := by
  refine ⟨?_, ?_⟩
  · rw [h.1, h'.1, List.append_assoc]
  · rw [h'.2, h.2, adv_adv, List.length_append]

theorem Eats.det {c c' c'' : Cursor} {s : Bytes} (h : Eats c s c') (h' : Eats c s c'') :
    c' = c'' := h.2.trans h'.2.symm

theorem Eats.data_eq {c c' : Cursor} {s : Bytes} (h : Eats c s c') : c'.data = c.data := by
  rw [h.2, adv]

theorem Eats.ptr_eq {c c' : Cursor} {s : Bytes} (h : Eats c s c') : c'.ptr = c.ptr := by
  rw [h.2, adv]

theorem Eats.pos_eq {c c' : Cursor} {s : Bytes} (h : Eats c s c') : c'.pos = c.pos + s.length := by
  rw [h.2, adv]

/-- The slice from where `s` starts to where it ends is `s`. -/
theorem Eats.slice_eq {c c' : Cursor} {s : Bytes} (h : Eats c s c') :
    c'.slice c.pos = new s (c.ptr + c.pos) := by
  have hlen : s.length ≤ c.data.length - c.pos := by
    have := congrArg List.length h.1
    rw [rest, List.length_drop, List.length_append] at this
    omega
  rw [slice, h.data_eq, h.ptr_eq, h.pos_eq]
  congr 1
  rw [List.drop_take, show c.pos + s.length - c.pos = s.length by omega]
  change c.rest.take s.length = s
  rw [h.1, List.take_left]

@[simp] theorem rest_new (s : Bytes) (ptr : Nat) : (new s ptr).rest = s := rfl

/-! ## Whitespace and single bytes -/

theorem wsRun_append {ws t : Bytes} (hws : IsWs ws) : wsRun (ws ++ t) = ws.length + wsRun t := by
  induction ws with
  | nil => simp
  | cons b ws ih =>
    rw [List.cons_append, wsRun, if_pos (hws b (by simp)),
      ih fun x hx => hws x (List.mem_cons_of_mem _ hx), List.length_cons]
    omega

theorem wsRun_of_head {t : Bytes} (ht : ∀ b ∈ t.head?, isWs b = false) : wsRun t = 0 := by
  cases t with
  | nil => rfl
  | cons b t =>
    rw [wsRun, if_neg]
    rw [ht b (by simp)]
    simp

/-- **`skip_ws` takes the leading whitespace, all of it.** -/
theorem skipWs_spec (c : Cursor) :
    ∃ ws, IsWs ws ∧ Eats c ws c.skipWs ∧ ∀ b ∈ c.skipWs.rest.head?, isWs b = false := by
  have key : ∀ s : Bytes, ∃ ws t, s = ws ++ t ∧ IsWs ws ∧ wsRun s = ws.length ∧
      ∀ b ∈ t.head?, isWs b = false := by
    intro s
    induction s with
    | nil => exact ⟨[], [], rfl, IsWs.nil, rfl, by simp⟩
    | cons b s ih =>
      by_cases hb : isWs b = true
      · obtain ⟨ws, t, rfl, hws, hrun, ht⟩ := ih
        refine ⟨b :: ws, t, rfl, IsWs.cons hb hws, ?_, ht⟩
        rw [wsRun, if_pos hb, hrun, List.length_cons]
      · refine ⟨[], b :: s, rfl, IsWs.nil, ?_, ?_⟩
        · rw [wsRun, if_neg hb, List.length_nil]
        · intro x hx
          obtain rfl : b = x := by simpa using hx
          simpa using hb
  obtain ⟨ws, t, hs, hws, hrun, ht⟩ := key c.rest
  have heats : Eats c ws c.skipWs := by
    rw [skipWs, hrun]
    exact Eats.of_rest hs
  refine ⟨ws, hws, heats, ?_⟩
  rw [heats.rest_eq hs]
  exact ht

theorem skipWs_complete {c : Cursor} {ws t : Bytes} (h : c.rest = ws ++ t) (hws : IsWs ws)
    (ht : ∀ b ∈ t.head?, isWs b = false) : Eats c ws c.skipWs := by
  rw [skipWs, h, wsRun_append hws, wsRun_of_head ht, Nat.add_zero]
  exact Eats.of_rest h

theorem eat_eq_true {c c' : Cursor} {b : UInt8} (h : c.eat b = (true, c')) : Eats c [b] c' := by
  unfold eat at h
  split at h
  · next hp =>
    cases h
    cases hr : c.rest with
    | nil => rw [peek, hr] at hp; exact absurd hp (by simp)
    | cons x t =>
      rw [peek, hr] at hp
      obtain rfl : x = b := by simpa using hp
      exact Eats.of_rest (show c.rest = [x] ++ t from hr)
  · exact absurd h (by simp)

theorem eat_complete {c : Cursor} {b : UInt8} {t : Bytes} (h : c.rest = b :: t) :
    c.eat b = (true, c.adv 1) := by
  rw [eat, if_pos]
  rw [peek, h, List.head?_cons]

theorem eat_of_ne {c : Cursor} {b x : UInt8} {t : Bytes} (h : c.rest = x :: t) (hne : x ≠ b) :
    c.eat b = (false, c) := by
  rw [eat, if_neg]
  rw [peek, h, List.head?_cons]
  simpa using hne

theorem eat_eq_false {c c' : Cursor} {b : UInt8} (h : c.eat b = (false, c')) : c' = c := by
  unfold eat at h
  split at h
  · exact absurd h (by simp)
  · cases h; rfl

theorem eatToken_eq_true {c c' : Cursor} {tok : Bytes} (h : c.eatToken tok = (true, c')) :
    Eats c tok c' := by
  unfold eatToken at h
  split at h
  · next ht =>
    cases h
    refine Eats.of_rest (t := c.rest.drop tok.length) ?_
    conv_lhs => rw [← List.take_append_drop tok.length c.rest, ht]
  · exact absurd h (by simp)

theorem eatToken_complete {c : Cursor} {tok t : Bytes} (h : c.rest = tok ++ t) :
    c.eatToken tok = (true, c.adv tok.length) := by
  rw [eatToken, if_pos]
  rw [h, List.take_left]

/-! ## Strings -/

theorem scanBody_escape (e : UInt8) (r : Bytes) : scanBody (backslash :: e :: r) =
    if isEscape e then (scanBody r).map (backslash :: e :: ·) else none := rfl

theorem scanBody_plain {b : UInt8} (hq : b ≠ quote) (hb : b ≠ backslash) (r : Bytes) :
    scanBody (b :: r) = if b < 32 then none else (scanBody r).map (b :: ·) := by
  apply scanBody.eq_5
  · exact hq
  · intro e r' h
    exact absurd h hb
  · intro h
    exact absurd h hb

theorem scanBody_sound {s inner : Bytes} (h : scanBody s = some inner) :
    IsStringBody inner ∧ ∃ t, s = inner ++ quote :: t := by
  fun_induction scanBody s generalizing inner with
  | case1 => exact absurd h (by simp)
  | case2 r =>
    cases h
    exact ⟨.nil, r, rfl⟩
  | case3 e r he ih =>
    obtain ⟨i, hi, rfl⟩ := Option.map_eq_some_iff.mp h
    obtain ⟨hbody, t, ht⟩ := ih hi
    exact ⟨.escape he hbody, t, by rw [ht]; rfl⟩
  | case4 => exact absurd h (by simp)
  | case5 => exact absurd h (by simp)
  | case6 => exact absurd h (by simp)
  | case7 b r hq hesc hlast hctl ih =>
    obtain ⟨i, hi, rfl⟩ := Option.map_eq_some_iff.mp h
    obtain ⟨hbody, t, ht⟩ := ih hi
    -- a backslash was taken by the escape cases
    have hbs : b ≠ backslash := by
      intro hb
      cases r with
      | nil => exact hlast hb rfl
      | cons e r => exact hesc e r hb rfl
    exact ⟨.plain hq hbs (by simpa using hctl) hbody, t, by rw [ht]; rfl⟩

theorem scanBody_complete {inner : Bytes} (h : IsStringBody inner) (t : Bytes) :
    scanBody (inner ++ quote :: t) = some inner := by
  induction h with
  | nil => rfl
  | plain hq hbs hctl _ ih =>
    rw [List.cons_append, scanBody_plain hq hbs, if_neg (by simpa using hctl), ih]
    rfl
  | escape he _ ih =>
    rw [List.cons_append, List.cons_append, scanBody_escape, if_pos he, ih]
    rfl

/-- **`raw_string` accepts exactly a quoted string body** and stops behind the closing quote. -/
theorem rawString_sound {c c' : Cursor} {raw : Bytes} (h : c.rawString = (some raw, c')) :
    IsStringBody raw ∧ Eats c (quote :: (raw ++ [quote])) c' := by
  unfold rawString at h
  split at h
  · exact absurd h (by simp)
  · next c₁ heat =>
    split at h
    · exact absurd h (by simp)
    · next inner hscan =>
      cases h
      obtain ⟨hbody, t, ht⟩ := scanBody_sound hscan
      refine ⟨hbody, ?_⟩
      have h₂ : Eats c₁ (raw ++ [quote]) (c₁.adv (raw.length + 1)) := by
        have := Eats.of_rest (show c₁.rest = (raw ++ [quote]) ++ t by rw [ht]; simp)
        rwa [List.length_append, List.length_singleton] at this
      exact (eat_eq_true heat).trans h₂

theorem rawString_complete {c : Cursor} {raw t : Bytes}
    (h : c.rest = quote :: (raw ++ quote :: t)) (hraw : IsStringBody raw) :
    c.rawString = (some raw, c.adv (raw.length + 2)) := by
  have hrest : (c.adv 1).rest = raw ++ quote :: t := by
    rw [rest_adv, h, List.drop_one, List.tail_cons]
  simp only [rawString, eat_complete h, hrest, scanBody_complete hraw, adv_adv]
  rw [show 1 + (raw.length + 1) = raw.length + 2 by omega]

/-! ## Numbers -/

theorem digitRun_spec (s : Bytes) :
    ∃ ds t, s = ds ++ t ∧ (∀ b ∈ ds, isDigit b = true) ∧ digitRun s = ds.length := by
  induction s with
  | nil => exact ⟨[], [], rfl, by simp, rfl⟩
  | cons b s ih =>
    by_cases hb : isDigit b = true
    · obtain ⟨ds, t, rfl, hds, hrun⟩ := ih
      refine ⟨b :: ds, t, rfl, ?_, ?_⟩
      · intro x hx
        rcases List.mem_cons.mp hx with rfl | hx
        · exact hb
        · exact hds x hx
      · rw [digitRun, if_pos hb, hrun, List.length_cons]
    · exact ⟨[], b :: s, rfl, by simp, by rw [digitRun, if_neg hb, List.length_nil]⟩

theorem digitRun_complete {ds t : Bytes} (hds : ∀ b ∈ ds, isDigit b = true)
    (ht : ∀ b ∈ t.head?, isDigit b = false) : digitRun (ds ++ t) = ds.length := by
  induction ds with
  | nil =>
    cases t with
    | nil => rfl
    | cons b t =>
      rw [List.nil_append, digitRun, if_neg, List.length_nil]
      rw [ht b (by simp)]
      simp
  | cons d ds ih =>
    rw [List.cons_append, digitRun, if_pos (hds d (by simp)),
      ih fun b hb => hds b (List.mem_cons_of_mem _ hb), List.length_cons]

theorem scanExp_sound {s : Bytes} {i : Bool} (h : (scanExp s i).1 = true) :
    ∃ e t, s = e ++ t ∧ IsExp e ∧ (scanExp s i).2.1 = e.length := by
  cases s with
  | nil => exact ⟨[], [], rfl, .inl rfl, rfl⟩
  | cons b r =>
    by_cases hb : b = lowerE ∨ b = upperE
    · simp only [scanExp, if_pos hb] at h ⊢
      -- the optional sign
      obtain ⟨sign, r', hr, hsign, hlen⟩ : ∃ sign r', r = sign ++ r' ∧
          (sign = [] ∨ sign = [plus] ∨ sign = [minus]) ∧
          (if r.head? = some plus ∨ r.head? = some minus then 1 else 0) = sign.length := by
        cases r with
        | nil => exact ⟨[], [], rfl, .inl rfl, rfl⟩
        | cons x r =>
          by_cases hx : x = plus ∨ x = minus
          · refine ⟨[x], r, rfl, ?_, by simp [hx]⟩
            rcases hx with rfl | rfl
            · exact .inr (.inl rfl)
            · exact .inr (.inr rfl)
          · exact ⟨[], x :: r, rfl, .inl rfl, by simpa using hx⟩
      rw [hlen, hr, List.drop_left] at h ⊢
      obtain ⟨ds, t, rfl, hds, hrun⟩ := digitRun_spec r'
      rw [hrun] at h ⊢
      have hne : ds ≠ [] := by
        rintro rfl
        exact absurd h (by simp)
      refine ⟨b :: (sign ++ ds), t, by simp, .inr ⟨b, sign, ds, hb, hsign, ⟨hne, hds⟩, rfl⟩, ?_⟩
      simp only [List.length_cons, List.length_append]
      omega
    · refine ⟨[], b :: r, rfl, .inl rfl, ?_⟩
      simp only [scanExp, if_neg hb, List.length_nil]

theorem scanFrac_dot (r : Bytes) : scanFrac (dot :: r) =
    if digitRun r = 0 then (false, 1, false)
    else ((scanExp (r.drop (digitRun r)) false).1,
      1 + digitRun r + (scanExp (r.drop (digitRun r)) false).2.1,
      (scanExp (r.drop (digitRun r)) false).2.2) := rfl

theorem scanFrac_sound {s : Bytes} (h : (scanFrac s).1 = true) :
    ∃ f e t, s = f ++ (e ++ t) ∧ IsFrac f ∧ IsExp e ∧ (scanFrac s).2.1 = f.length + e.length := by
  unfold scanFrac at h ⊢
  split at h
  · next r =>
    simp only at h ⊢
    obtain ⟨ds, t, rfl, hds, hrun⟩ := digitRun_spec r
    rw [hrun] at h ⊢
    by_cases hne : ds.length = 0
    · rw [if_pos hne] at h
      exact absurd h (by simp)
    · rw [if_neg hne, List.drop_left] at h ⊢
      obtain ⟨e, t', rfl, he, hlen⟩ := scanExp_sound h
      refine ⟨dot :: ds, e, t', rfl, .inr ⟨ds, ⟨?_, hds⟩, rfl⟩, he, ?_⟩
      · rintro rfl
        exact hne rfl
      · simp only [hlen, List.length_cons]
        omega
  · obtain ⟨e, t, rfl, he, hlen⟩ := scanExp_sound h
    exact ⟨[], e, t, rfl, .inl rfl, he, by rw [hlen, List.length_nil, Nat.zero_add]⟩

/-- The optional minus sign. -/
theorem minus_split (s : Bytes) : ∃ m r, s = m ++ r ∧ (m = [] ∨ m = [minus]) ∧
    (if s.head? = some minus then 1 else 0) = m.length := by
  cases s with
  | nil => exact ⟨[], [], rfl, .inl rfl, rfl⟩
  | cons b r =>
    by_cases hb : b = minus
    · exact ⟨[b], r, rfl, .inr (by rw [hb]), by simp [hb]⟩
    · exact ⟨[], b :: r, rfl, .inl rfl, by simp [hb]⟩

theorem scanNumber_sound {s : Bytes} (h : (scanNumber s).1 = true) :
    ∃ tok t, s = tok ++ t ∧ IsNumber tok ∧ (scanNumber s).2.1 = tok.length := by
  obtain ⟨m, r, hs, hm, hlen⟩ := minus_split s
  have hdrop : s.drop m.length = r := by rw [hs, List.drop_left]
  unfold scanNumber at h ⊢
  simp only [hlen, hdrop] at h ⊢
  split at h
  -- A leading zero ends the integer part.
  · next r' =>
    obtain ⟨f, e, t, rfl, hf, he, hn⟩ := scanFrac_sound h
    refine ⟨m ++ ([zero] ++ (f ++ e)), t, by rw [hs]; simp, ⟨m, [zero], f, e, hm, .inl rfl, hf, he, rfl⟩,
      ?_⟩
    simp only [hn, List.length_append, List.length_singleton]
    omega
  · next b r' hb0 =>
    by_cases hd : isDigit b = true
    -- Any other digit starts a run of digits.
    · simp only [if_pos hd] at h ⊢
      obtain ⟨ds, t, rfl, hds, hrun⟩ := digitRun_spec r'
      rw [hrun, List.drop_left] at h ⊢
      obtain ⟨f, e, t', rfl, hf, he, hn⟩ := scanFrac_sound h
      refine ⟨m ++ ((b :: ds) ++ (f ++ e)), t', by rw [hs]; simp, ⟨m, b :: ds, f, e, hm, ?_, hf, he,
        rfl⟩, ?_⟩
      · refine .inr ⟨⟨by simp, ?_⟩, by simpa using hb0⟩
        intro x hx
        rcases List.mem_cons.mp hx with rfl | hx
        · exact hd
        · exact hds x hx
      · simp only [hn, List.length_append, List.length_cons]
        omega
    · simp only [if_neg hd] at h
      exact absurd h (by simp)
  · exact absurd h (by simp)

theorem scanExp_complete {e t : Bytes} (he : IsExp e) (ht : Stops t) (i : Bool) :
    (scanExp (e ++ t) i).1 = true ∧ (scanExp (e ++ t) i).2.1 = e.length := by
  rcases he with rfl | ⟨c, sign, ds, hc, hsign, hds, rfl⟩
  · cases t with
    | nil => exact ⟨rfl, rfl⟩
    | cons b t =>
      have hb : ¬ (b = lowerE ∨ b = upperE) := by
        rintro (rfl | rfl)
        · exact (ht lowerE (by simp)).2.2.1 rfl
        · exact (ht upperE (by simp)).2.2.2 rfl
      simp [scanExp, if_neg hb]
  · have hlen : (if (sign ++ (ds ++ t)).head? = some plus ∨ (sign ++ (ds ++ t)).head? = some minus
        then 1 else 0) = sign.length := by
      rcases hsign with rfl | rfl | rfl
      · obtain ⟨d, r, rfl, hd, -⟩ := hds.exists_cons
        have hne : ¬ (d = plus ∨ d = minus) := by
          rintro (rfl | rfl) <;> exact absurd hd (by decide)
        simpa using hne
      · simp
      · simp
    have hne : ds.length ≠ 0 := by
      have := hds.1
      simpa using this
    rw [List.cons_append, List.append_assoc]
    simp only [scanExp, if_pos hc, hlen, List.drop_left,
      digitRun_complete hds.2 (ht.digit), List.length_cons, List.length_append]
    exact ⟨by simpa using hne, by omega⟩

theorem scanFrac_complete {f e t : Bytes} (hf : IsFrac f) (he : IsExp e) (ht : Stops t) :
    (scanFrac (f ++ (e ++ t))).1 = true ∧
      (scanFrac (f ++ (e ++ t))).2.1 = f.length + e.length := by
  obtain ⟨hdig, hdot⟩ := he.head_append ht
  rcases hf with rfl | ⟨ds, hds, rfl⟩
  · have hexp : scanFrac (e ++ t) = scanExp (e ++ t) true := by
      unfold scanFrac
      split
      · next r hr => rw [hr] at hdot; exact absurd rfl hdot
      · rfl
    rw [List.nil_append, hexp, List.length_nil, Nat.zero_add]
    exact scanExp_complete he ht true
  · have hne : ds.length ≠ 0 := by
      have := hds.1
      simpa using this
    obtain ⟨h₁, h₂⟩ := scanExp_complete he ht false
    rw [List.cons_append, scanFrac_dot, digitRun_complete hds.2 hdig, if_neg hne, List.drop_left]
    refine ⟨h₁, ?_⟩
    simp only [h₂, List.length_cons]
    omega

theorem scanNumber_complete {tok t : Bytes} (h : IsNumber tok) (ht : Stops t) :
    (scanNumber (tok ++ t)).1 = true ∧ (scanNumber (tok ++ t)).2.1 = tok.length := by
  obtain ⟨m, i, f, e, hm, hi, hf, he, rfl⟩ := h
  obtain ⟨h₁, h₂⟩ := scanFrac_complete hf he ht
  -- An integer part begins with a digit, so the sign is eaten only where there is one.
  have hlen : (if (m ++ (i ++ (f ++ (e ++ t)))).head? = some minus then 1 else 0) = m.length := by
    rcases hm with rfl | rfl
    · rcases hi.cases with rfl | ⟨d, r, rfl, hd, -, -⟩
      · exact if_neg (show ¬ some zero = some minus by decide)
      · have hne : d ≠ minus := by
          rintro rfl
          exact absurd hd (by decide)
        simpa using hne
    · simp
  rw [show (m ++ (i ++ (f ++ e))) ++ t = m ++ (i ++ (f ++ (e ++ t))) by simp]
  unfold scanNumber
  simp only [hlen, List.drop_left]
  rcases hi.cases with rfl | ⟨d, r, rfl, hd, hd0, hr⟩
  · show (scanFrac (f ++ (e ++ t))).1 = true ∧
      m.length + 1 + (scanFrac (f ++ (e ++ t))).2.1 = (m ++ ([zero] ++ (f ++ e))).length
    refine ⟨h₁, ?_⟩
    simp only [h₂, List.length_append, List.length_cons, List.length_nil]
    omega
  · rw [List.cons_append]
    split
    -- Of the three branches of the match the text picks the second: its first digit is not a zero.
    · next r' heq => exact absurd (List.cons.inj heq).1 hd0
    · next b r' _ heq =>
      obtain ⟨rfl, rfl⟩ := List.cons.inj heq
      simp only [if_pos hd, digitRun_complete hr (hf.head_append he ht), List.drop_left, h₁, h₂,
        List.length_append, List.length_cons]
      exact ⟨trivial, by omega⟩
    · next heq => exact absurd heq (by simp)

/-- **`number` accepts exactly number tokens** … -/
theorem number_sound {c c' : Cursor} {tok : Bytes} {i : Bool}
    (h : c.number = (some (tok, i), c')) : IsNumber tok ∧ Eats c tok c' := by
  unfold number at h
  simp only at h
  split at h
  · next hok =>
    obtain ⟨tok', t, hs, htok, hlen⟩ := scanNumber_sound hok
    rw [hlen, show c.rest.take tok'.length = tok' by rw [hs, List.take_left]] at h
    cases h
    exact ⟨htok, Eats.of_rest hs⟩
  · exact absurd h (by simp)

/-- The text `s` of `v` ends where `t` starts: if it is a number, a scan takes no more of it than
`s`. -/
def Ends (v : Json) (s t : Bytes) : Prop :=
  Stops t ∨ ∀ tok, v = .num tok →
    (scanNumber (s ++ t)).1 = true ∧ (scanNumber (s ++ t)).2.1 = s.length

/-- … and takes the whole token when what follows does not extend it. -/
theorem number_complete {c : Cursor} {tok t : Bytes} (h : c.rest = tok ++ t) (htok : IsNumber tok)
    (ht : Ends (.num tok) tok t) : ∃ i, c.number = (some (tok, i), c.adv tok.length) := by
  obtain ⟨h₁, h₂⟩ : (scanNumber (tok ++ t)).1 = true ∧ (scanNumber (tok ++ t)).2.1 = tok.length :=
    ht.elim (scanNumber_complete htok) fun h => h tok rfl
  refine ⟨(scanNumber c.rest).2.2, ?_⟩
  simp only [number, h, h₁, h₂, if_true, List.take_left]

end Cursor

end Castrum
