import Castrum.Lib.Scan
import Mathlib.Tactic

/-!
# Castrum — the JSON text grammar

RFC 8259 over bytes, with string bodies relaxed to bytes `≥ 0x20` and escape letters. A document
is read as a `Json` tree that keeps number tokens and string bodies as they are written, so one
text has one tree and nothing is lost. `JsonText n v s` says that `s` is a text of `v` and that
`v` is nested at most `n` deep; a parser with a depth cap accepts exactly one level of it.

* `JsonText.height_le` / `JsonText.of_height_le` — the index is a bound on `Json.height`;
* `isText_iff` — one level of the grammar, unfolded;
* `Stops` — what may follow a number without extending it.
-/

namespace Castrum

/-! ## Bytes of the grammar -/

namespace Ascii

@[match_pattern] abbrev quote : UInt8 := 34
@[match_pattern] abbrev plus : UInt8 := 43
@[match_pattern] abbrev comma : UInt8 := 44
@[match_pattern] abbrev minus : UInt8 := 45
@[match_pattern] abbrev dot : UInt8 := 46
@[match_pattern] abbrev zero : UInt8 := 48
@[match_pattern] abbrev colon : UInt8 := 58
@[match_pattern] abbrev upperE : UInt8 := 69
@[match_pattern] abbrev lbracket : UInt8 := 91
@[match_pattern] abbrev backslash : UInt8 := 92
@[match_pattern] abbrev rbracket : UInt8 := 93
@[match_pattern] abbrev lowerE : UInt8 := 101
@[match_pattern] abbrev lbrace : UInt8 := 123
@[match_pattern] abbrev rbrace : UInt8 := 125

/-- `true`, `false`, `null`. -/
abbrev trueTok : List UInt8 := [116, 114, 117, 101]
abbrev falseTok : List UInt8 := [102, 97, 108, 115, 101]
abbrev nullTok : List UInt8 := [110, 117, 108, 108]

end Ascii

open Ascii

def isWs (b : UInt8) : Bool := b == 32 || b == 9 || b == 10 || b == 13

def isDigit (b : UInt8) : Bool := 48 ≤ b && b ≤ 57

/-- The letters that may follow a backslash. -/
def isEscape (b : UInt8) : Bool :=
  b == 34 || b == 92 || b == 47 || b == 98 || b == 102 || b == 110 || b == 114 || b == 116 ||
    b == 117

/-! ## Tokens -/

def IsWs (ws : List UInt8) : Prop := ∀ b ∈ ws, isWs b = true

def IsDigits (ds : List UInt8) : Prop := ds ≠ [] ∧ ∀ b ∈ ds, isDigit b = true

/-- `int`: no leading zero. -/
def IsInt (i : List UInt8) : Prop := i = [zero] ∨ (IsDigits i ∧ i.head? ≠ some zero)

def IsFrac (f : List UInt8) : Prop := f = [] ∨ ∃ ds, IsDigits ds ∧ f = dot :: ds

def IsExp (e : List UInt8) : Prop :=
  e = [] ∨ ∃ c sign ds, (c = lowerE ∨ c = upperE) ∧ (sign = [] ∨ sign = [plus] ∨ sign = [minus]) ∧
    IsDigits ds ∧ e = c :: (sign ++ ds)

/-- `number = [ minus ] int [ frac ] [ exp ]`. -/
def IsNumber (tok : List UInt8) : Prop :=
  ∃ m i f e, (m = [] ∨ m = [minus]) ∧ IsInt i ∧ IsFrac f ∧ IsExp e ∧ tok = m ++ (i ++ (f ++ e))

/-- The inside of a string: plain bytes, and backslashes with an escape letter. -/
inductive IsStringBody : List UInt8 → Prop where
  | nil : IsStringBody []
  | plain {b : UInt8} {r : List UInt8} : b ≠ quote → b ≠ backslash → 32 ≤ b → IsStringBody r →
      IsStringBody (b :: r)
  | escape {e : UInt8} {r : List UInt8} : isEscape e = true → IsStringBody r →
      IsStringBody (backslash :: e :: r)

/-- What follows cannot extend a number token. -/
def Stops (t : List UInt8) : Prop :=
  ∀ b ∈ t.head?, isDigit b = false ∧ b ≠ dot ∧ b ≠ lowerE ∧ b ≠ upperE

/-! ## Trees -/

/-- A JSON document with its tokens as written: `num` holds the token, `str` and object keys the
bytes between the quotes. -/
inductive Json where
  | null
  | bool (b : Bool)
  | num (tok : List UInt8)
  | str (raw : List UInt8)
  | arr (items : List Json)
  | obj (members : List (List UInt8 × Json))

mutual

/-- Nesting depth: `0` for scalars and empty containers. -/
def Json.height : Json → Nat
  | .arr items => heightItems items
  | .obj members => heightMembers members
  | _ => 0

def heightItems : List Json → Nat
  | [] => 0
  | v :: vs => max (v.height + 1) (heightItems vs)

def heightMembers : List (List UInt8 × Json) → Nat
  | [] => 0
  | (_, v) :: ms => max (v.height + 1) (heightMembers ms)

end

theorem height_lt_heightItems {v : Json} {vs : List Json} (h : v ∈ vs) :
    v.height < heightItems vs := by
  induction vs with
  | nil => exact absurd h (by simp)
  | cons x xs ih =>
    rw [heightItems]
    rcases List.mem_cons.mp h with rfl | h
    · omega
    · have := ih h
      omega

theorem height_lt_heightMembers {m : List UInt8 × Json} {ms : List (List UInt8 × Json)}
    (h : m ∈ ms) : m.2.height < heightMembers ms := by
  induction ms with
  | nil => exact absurd h (by simp)
  | cons x xs ih =>
    obtain ⟨k, x⟩ := x
    rw [heightMembers]
    rcases List.mem_cons.mp h with rfl | h
    · show x.height < _
      omega
    · have := ih h
      omega

/-! ## Texts -/

section

variable (T : Json → List UInt8 → Prop)

/-- The elements of a non-empty array, up to the closing bracket. -/
inductive Elements : List Json → List UInt8 → Prop where
  | one {w₁ s w₂ : List UInt8} {v : Json} : IsWs w₁ → T v s → IsWs w₂ →
      Elements [v] (w₁ ++ (s ++ w₂))
  | cons {w₁ s w₂ rest : List UInt8} {v : Json} {vs : List Json} : IsWs w₁ → T v s → IsWs w₂ →
      Elements vs rest → Elements (v :: vs) (w₁ ++ (s ++ (w₂ ++ comma :: rest)))

/-- One member: key, colon, value, with the whitespace around them. -/
inductive Member : List UInt8 × Json → List UInt8 → Prop where
  | mk {w₁ w₂ w₃ s w₄ raw : List UInt8} {v : Json} : IsWs w₁ → IsStringBody raw → IsWs w₂ →
      IsWs w₃ → T v s → IsWs w₄ →
      Member (raw, v)
        (w₁ ++ (quote :: (raw ++ (quote :: (w₂ ++ (colon :: (w₃ ++ (s ++ w₄))))))))

/-- The members of a non-empty object, up to the closing brace. -/
inductive Members : List (List UInt8 × Json) → List UInt8 → Prop where
  | one {m : List UInt8 × Json} {s : List UInt8} : Member T m s → Members [m] s
  | cons {m : List UInt8 × Json} {ms : List (List UInt8 × Json)} {s rest : List UInt8} :
      Member T m s → Members ms rest → Members (m :: ms) (s ++ comma :: rest)

/-- One level of the value grammar, over a grammar `T` for what is nested inside. -/
def ValueText : Json → List UInt8 → Prop
  | .null, s => s = nullTok
  | .bool b, s => s = if b then trueTok else falseTok
  | .num tok, s => s = tok ∧ IsNumber tok
  | .str raw, s => s = quote :: (raw ++ [quote]) ∧ IsStringBody raw
  | .arr items, s => ∃ body, s = lbracket :: (body ++ [rbracket]) ∧
      ((items = [] ∧ IsWs body) ∨ Elements T items body)
  | .obj members, s => ∃ body, s = lbrace :: (body ++ [rbrace]) ∧
      ((members = [] ∧ IsWs body) ∨ Members T members body)

end

/-- `s` is a text of `v`, nested at most `n` deep. -/
def JsonText : Nat → Json → List UInt8 → Prop
  | 0 => ValueText (fun _ _ => False)
  | n + 1 => ValueText (JsonText n)

/-- `s` is a text of `v`. -/
def IsText (v : Json) (s : List UInt8) : Prop := ∃ n, JsonText n v s

/-- A whole document: whitespace, one value, whitespace. -/
def IsDocument (v : Json) (bytes : List UInt8) : Prop :=
  ∃ w₁ s w₂, bytes = w₁ ++ (s ++ w₂) ∧ IsWs w₁ ∧ IsText v s ∧ IsWs w₂

/-! ## Whitespace -/

theorem IsWs.nil : IsWs [] := fun _ hb => absurd hb (by simp)

theorem IsWs.cons {b : UInt8} {ws : List UInt8} (hb : isWs b = true) (hws : IsWs ws) :
    IsWs (b :: ws) := by
  intro x hx
  rcases List.mem_cons.mp hx with rfl | hx
  · exact hb
  · exact hws x hx

theorem IsWs.append {w₁ w₂ : List UInt8} (h₁ : IsWs w₁) (h₂ : IsWs w₂) : IsWs (w₁ ++ w₂) := by
  intro b hb
  rcases List.mem_append.mp hb with hb | hb
  · exact h₁ b hb
  · exact h₂ b hb

/-! ## Levels -/

section

variable {T T' : Json → List UInt8 → Prop}

theorem Elements.imp {vs : List Json} {s : List UInt8} (h : Elements T vs s)
    (hT : ∀ v ∈ vs, ∀ s, T v s → T' v s) : Elements T' vs s := by
  induction h with
  | one h₁ hv h₂ => exact .one h₁ (hT _ (by simp) _ hv) h₂
  | cons h₁ hv h₂ _ ih =>
    exact .cons h₁ (hT _ (by simp) _ hv) h₂ (ih fun v hmem => hT v (List.mem_cons_of_mem _ hmem))

theorem Member.imp {m : List UInt8 × Json} {s : List UInt8} (h : Member T m s)
    (hT : ∀ s, T m.2 s → T' m.2 s) : Member T' m s := by
  cases h with
  | mk h₁ hraw h₂ h₃ hv h₄ => exact .mk h₁ hraw h₂ h₃ (hT _ hv) h₄

theorem Members.imp {ms : List (List UInt8 × Json)} {s : List UInt8} (h : Members T ms s)
    (hT : ∀ m ∈ ms, ∀ s, T m.2 s → T' m.2 s) : Members T' ms s := by
  induction h with
  | one hm => exact .one (hm.imp (hT _ (by simp)))
  | cons hm _ ih =>
    exact .cons (hm.imp (hT _ (by simp))) (ih fun m hmem => hT m (List.mem_cons_of_mem _ hmem))

end

theorem Elements.ne_nil {T : Json → List UInt8 → Prop} {vs : List Json} {s : List UInt8}
    (h : Elements T vs s) : vs ≠ [] := by
  cases h <;> simp

theorem Members.ne_nil {T : Json → List UInt8 → Prop} {ms : List (List UInt8 × Json)}
    {s : List UInt8} (h : Members T ms s) : ms ≠ [] := by
  cases h <;> simp

/-- Leading whitespace may be added to a list of elements … -/
theorem Elements.ws_append {T : Json → List UInt8 → Prop} {vs : List Json} {s w : List UInt8}
    (h : Elements T vs s) (hw : IsWs w) : Elements T vs (w ++ s) := by
  cases h with
  | one h₁ hv h₂ =>
    rw [← List.append_assoc]
    exact .one (hw.append h₁) hv h₂
  | cons h₁ hv h₂ hrest =>
    rw [← List.append_assoc]
    exact .cons (hw.append h₁) hv h₂ hrest

/-- … and to a list of members. -/
theorem Members.ws_append {T : Json → List UInt8 → Prop} {ms : List (List UInt8 × Json)}
    {s w : List UInt8} (h : Members T ms s) (hw : IsWs w) : Members T ms (w ++ s) := by
  have member : ∀ {m s}, Member T m s → Member T m (w ++ s) := by
    intro m s hm
    cases hm with
    | mk h₁ hraw h₂ h₃ hv h₄ =>
      rw [← List.append_assoc]
      exact .mk (hw.append h₁) hraw h₂ h₃ hv h₄
  cases h with
  | one hm => exact .one (member hm)
  | cons hm hrest =>
    rw [← List.append_assoc]
    exact .cons (member hm) hrest

theorem Member.ne_nil {T : Json → List UInt8 → Prop} {m : List UInt8 × Json} {s : List UInt8}
    (h : Member T m s) : s ≠ [] := by
  cases h
  simp

/-- A text of level `n` is one of every level that bounds the tree's height. Induction on the
target level: the elements of a tree of height `k + 1` have height at most `k`. -/
theorem JsonText.of_height_le {n k : Nat} {v : Json} {s : List UInt8} (h : JsonText n v s)
    (hv : v.height ≤ k) : JsonText k v s := by
  induction k generalizing n v s with
  | zero =>
    -- a tree of height 0 has nothing inside
    cases v with
    | arr items =>
      have hnil : items = [] := by
        cases items with
        | nil => rfl
        | cons x xs => simp only [Json.height, heightItems] at hv; omega
      subst hnil
      cases n <;> obtain ⟨body, hs, hbody⟩ := h <;>
        exact ⟨body, hs, .inl ⟨rfl, (hbody.resolve_right fun he => he.ne_nil rfl).2⟩⟩
    | obj members =>
      have hnil : members = [] := by
        cases members with
        | nil => rfl
        | cons x xs => simp only [Json.height, heightMembers] at hv; omega
      subst hnil
      cases n <;> obtain ⟨body, hs, hbody⟩ := h <;>
        exact ⟨body, hs, .inl ⟨rfl, (hbody.resolve_right fun he => he.ne_nil rfl).2⟩⟩
    | _ => cases n <;> exact h
  | succ k ih =>
    cases v with
    | arr items =>
      have hlt : ∀ x ∈ items, x.height ≤ k := by
        intro x hx
        have := height_lt_heightItems hx
        rw [Json.height] at hv
        omega
      cases n with
      | zero =>
        obtain ⟨body, hs, hbody⟩ := h
        refine ⟨body, hs, hbody.imp_right fun he => he.imp fun _ _ _ hf => hf.elim⟩
      | succ n =>
        obtain ⟨body, hs, hbody⟩ := h
        exact ⟨body, hs, hbody.imp_right fun he => he.imp fun x hx s ht => ih ht (hlt x hx)⟩
    | obj members =>
      have hlt : ∀ m ∈ members, m.2.height ≤ k := by
        intro m hm
        have := height_lt_heightMembers hm
        rw [Json.height] at hv
        omega
      cases n with
      | zero =>
        obtain ⟨body, hs, hbody⟩ := h
        refine ⟨body, hs, hbody.imp_right fun he => he.imp fun _ _ _ hf => hf.elim⟩
      | succ n =>
        obtain ⟨body, hs, hbody⟩ := h
        exact ⟨body, hs, hbody.imp_right fun he => he.imp fun m hm s ht => ih ht (hlt m hm)⟩
    | _ => cases n <;> exact h

theorem Elements.exists_text {T : Json → List UInt8 → Prop} {vs : List Json} {s : List UInt8}
    (h : Elements T vs s) : ∀ v ∈ vs, ∃ t, T v t := by
  induction h with
  | one _ hv _ =>
    intro v hmem
    rw [List.mem_singleton.mp hmem]
    exact ⟨_, hv⟩
  | cons _ hv _ _ ih =>
    intro v hmem
    rcases List.mem_cons.mp hmem with rfl | hmem
    · exact ⟨_, hv⟩
    · exact ih v hmem

theorem Members.exists_text {T : Json → List UInt8 → Prop} {ms : List (List UInt8 × Json)}
    {s : List UInt8} (h : Members T ms s) :
    ∀ m ∈ ms, IsStringBody m.1 ∧ ∃ t, T m.2 t := by
  have member : ∀ {m s}, Member T m s → IsStringBody m.1 ∧ ∃ t, T m.2 t := by
    intro m s hm
    cases hm with
    | mk _ hraw _ _ hv _ => exact ⟨hraw, _, hv⟩
  induction h with
  | one hm =>
    intro m hmem
    rw [List.mem_singleton.mp hmem]
    exact member hm
  | cons hm _ ih =>
    intro m hmem
    rcases List.mem_cons.mp hmem with rfl | hmem
    · exact member hm
    · exact ih m hmem

theorem heightItems_le {vs : List Json} {n : Nat} (h : ∀ v ∈ vs, v.height < n) :
    heightItems vs ≤ n := by
  induction vs with
  | nil => rw [heightItems]; omega
  | cons v vs ih =>
    rw [heightItems]
    have h1 := h v (by simp)
    have h2 := ih fun x hx => h x (List.mem_cons_of_mem _ hx)
    omega

theorem heightMembers_le {ms : List (List UInt8 × Json)} {n : Nat}
    (h : ∀ m ∈ ms, m.2.height < n) : heightMembers ms ≤ n := by
  induction ms with
  | nil => rw [heightMembers]; omega
  | cons m ms ih =>
    obtain ⟨k, v⟩ := m
    rw [heightMembers]
    have h1 : v.height < n := h (k, v) (by simp)
    have h2 := ih fun x hx => h x (List.mem_cons_of_mem _ hx)
    omega

/-- The level of a text bounds the height of its tree. -/
theorem JsonText.height_le {n : Nat} {v : Json} {s : List UInt8} (h : JsonText n v s) :
    v.height ≤ n := by
  -- a text of level 0 has no containers but empty ones
  induction n generalizing v s with
  | zero =>
    cases v with
    | arr items =>
      obtain ⟨body, -, ⟨rfl, -⟩ | he⟩ := h
      · simp [Json.height, heightItems]
      · rw [Json.height]
        exact heightItems_le fun v hv => ((he.exists_text v hv).choose_spec).elim
    | obj members =>
      obtain ⟨body, -, ⟨rfl, -⟩ | he⟩ := h
      · simp [Json.height, heightMembers]
      · rw [Json.height]
        exact heightMembers_le fun m hm => ((he.exists_text m hm).2.choose_spec).elim
    | _ => simp [Json.height]
  | succ n ih =>
    cases v with
    | arr items =>
      obtain ⟨body, -, ⟨rfl, -⟩ | he⟩ := h
      · simp [Json.height, heightItems]
      · rw [Json.height]
        refine heightItems_le fun v hv => ?_
        obtain ⟨t, ht⟩ := he.exists_text v hv
        exact Nat.lt_succ_of_le (ih ht)
    | obj members =>
      obtain ⟨body, -, ⟨rfl, -⟩ | he⟩ := h
      · simp [Json.height, heightMembers]
      · rw [Json.height]
        refine heightMembers_le fun m hm => ?_
        obtain ⟨-, t, ht⟩ := he.exists_text m hm
        exact Nat.lt_succ_of_le (ih ht)
    | _ => simp [Json.height]

/-- One step of the text grammar is closed under `IsText`: the trees inside have texts of some
level, and the largest one serves them all. -/
theorem isText_iff (v : Json) (s : List UInt8) : IsText v s ↔ ValueText IsText v s := by
  constructor
  · rintro ⟨n, h⟩
    -- the texts of the level below are texts
    have sub : ∀ {T : Json → List UInt8 → Prop}, (∀ v s, T v s → IsText v s) →
        ValueText T v s → ValueText IsText v s := by
      intro T hT hv
      cases v with
      | arr items =>
        obtain ⟨body, hs, hbody⟩ := hv
        exact ⟨body, hs, hbody.imp_right fun he => he.imp fun x _ t ht => hT x t ht⟩
      | obj members =>
        obtain ⟨body, hs, hbody⟩ := hv
        exact ⟨body, hs, hbody.imp_right fun he => he.imp fun m _ t ht => hT m.2 t ht⟩
      | _ => exact hv
    cases n with
    | zero => exact sub (fun v s hf => hf.elim) h
    | succ n => exact sub (fun v s ht => ⟨n, ht⟩) h
  · intro h
    refine ⟨v.height, ?_⟩
    -- and the tree's height is a level for all of them
    have lift : ∀ {x : Json} {t : List UInt8} {k : Nat}, IsText x t → x.height ≤ k →
        JsonText k x t := fun hx hk => hx.choose_spec.of_height_le hk
    cases v with
    | arr items =>
      obtain ⟨body, hs, hbody⟩ := h
      cases items with
      | nil => exact ⟨body, hs, .inl ⟨rfl, (hbody.resolve_right fun he => he.ne_nil rfl).2⟩⟩
      | cons x xs =>
        have he := hbody.resolve_left (by simp)
        obtain ⟨k, hk⟩ : ∃ k, (Json.arr (x :: xs)).height = k + 1 := by
          refine ⟨(Json.arr (x :: xs)).height - 1, ?_⟩
          have := height_lt_heightItems (List.mem_cons_self (a := x) (l := xs))
          rw [Json.height]
          omega
        rw [hk]
        refine ⟨body, hs, .inr (he.imp fun y hy t ht => lift ht ?_)⟩
        have := height_lt_heightItems hy
        rw [Json.height] at hk
        omega
    | obj members =>
      obtain ⟨body, hs, hbody⟩ := h
      cases members with
      | nil => exact ⟨body, hs, .inl ⟨rfl, (hbody.resolve_right fun he => he.ne_nil rfl).2⟩⟩
      | cons x xs =>
        have he := hbody.resolve_left (by simp)
        obtain ⟨k, hk⟩ : ∃ k, (Json.obj (x :: xs)).height = k + 1 := by
          refine ⟨(Json.obj (x :: xs)).height - 1, ?_⟩
          have := height_lt_heightMembers (List.mem_cons_self (a := x) (l := xs))
          rw [Json.height]
          omega
        rw [hk]
        refine ⟨body, hs, .inr (he.imp fun y hy t ht => lift ht ?_)⟩
        have := height_lt_heightMembers hy
        rw [Json.height] at hk
        omega
    | _ => exact h

/-! ## First bytes and what may follow -/

theorem IsDigits.exists_cons {ds : List UInt8} (h : IsDigits ds) :
    ∃ d r, ds = d :: r ∧ isDigit d = true ∧ ∀ b ∈ r, isDigit b = true := by
  obtain ⟨hne, hall⟩ := h
  cases ds with
  | nil => exact absurd rfl hne
  | cons d r => exact ⟨d, r, rfl, hall d (by simp), fun b hb => hall b (List.mem_cons_of_mem _ hb)⟩

/-- An `int` starts with a digit: `0` alone, or a non-zero one and more digits. -/
theorem IsInt.cases {i : List UInt8} (h : IsInt i) :
    i = [zero] ∨ ∃ d r, i = d :: r ∧ isDigit d = true ∧ d ≠ zero ∧ ∀ b ∈ r, isDigit b = true := by
  rcases h with h | ⟨hds, hne⟩
  · exact .inl h
  · obtain ⟨d, r, rfl, hd, hr⟩ := hds.exists_cons
    exact .inr ⟨d, r, rfl, hd, fun h0 => hne (by rw [h0]; rfl), hr⟩

theorem IsNumber.head {tok : List UInt8} (h : IsNumber tok) :
    ∃ b r, tok = b :: r ∧ (b = minus ∨ isDigit b = true) := by
  obtain ⟨m, i, f, e, hm, hi, -, -, rfl⟩ := h
  rcases hm with rfl | rfl
  · rcases hi.cases with rfl | ⟨d, r, rfl, hd, -, -⟩
    · exact ⟨zero, f ++ e, rfl, .inr (by decide)⟩
    · exact ⟨d, r ++ (f ++ e), rfl, .inr hd⟩
  · exact ⟨minus, i ++ (f ++ e), rfl, .inl rfl⟩

theorem Stops.nil : Stops [] := fun _ hb => absurd hb (by simp)

/-- Whitespace, and whitespace before a closing byte or a comma, stops a number. -/
theorem Stops.ws_append {ws t : List UInt8} (hws : IsWs ws) (ht : Stops t) : Stops (ws ++ t) := by
  cases ws with
  | nil => exact ht
  | cons b ws =>
    intro x hx
    obtain rfl : b = x := by simpa using hx
    have key : ∀ b, isWs b = true → isDigit b = false ∧ b ≠ dot ∧ b ≠ lowerE ∧ b ≠ upperE :=
      forall_byte (by decide +kernel)
    exact key b (hws b (by simp))

theorem Stops.of_cons {b : UInt8} {t : List UInt8} (h : b = comma ∨ b = rbracket ∨ b = rbrace) :
    Stops (b :: t) := by
  intro x hx
  obtain rfl : b = x := by simpa using hx
  rcases h with rfl | rfl | rfl <;> decide

theorem Stops.digit {t : List UInt8} (h : Stops t) : ∀ b ∈ t.head?, isDigit b = false :=
  fun b hb => (h b hb).1

/-- An exponent that is empty or starts with its letter: what may follow the digits before it. -/
theorem IsExp.head_append {e t : List UInt8} (he : IsExp e) (ht : Stops t) :
    (∀ b ∈ (e ++ t).head?, isDigit b = false) ∧ (e ++ t).head? ≠ some dot := by
  rcases he with rfl | ⟨c, sign, ds, hc, -, -, rfl⟩
  · refine ⟨ht.digit, fun hd => ?_⟩
    exact (ht dot hd).2.1 rfl
  · rw [List.cons_append, List.head?_cons]
    rcases hc with rfl | rfl <;> exact ⟨by decide, by decide⟩

/-- What may follow an `int`: neither a digit nor, unless a fraction starts, a dot. -/
theorem IsFrac.head_append {f e t : List UInt8} (hf : IsFrac f) (he : IsExp e) (ht : Stops t) :
    ∀ b ∈ (f ++ (e ++ t)).head?, isDigit b = false := by
  rcases hf with rfl | ⟨ds, -, rfl⟩
  · exact (he.head_append ht).1
  · rw [List.cons_append, List.head?_cons]
    decide

/-- A text starts with a byte that is neither whitespace nor a closing byte. -/
def Starts (s : List UInt8) : Prop :=
  ∃ b r, s = b :: r ∧ isWs b = false ∧ b ≠ rbracket ∧ b ≠ rbrace

theorem Starts.append {s : List UInt8} (h : Starts s) (t : List UInt8) : Starts (s ++ t) := by
  obtain ⟨b, r, rfl, hb⟩ := h
  exact ⟨b, r ++ t, rfl, hb⟩

theorem Starts.of_append {s t : List UInt8} (h : Starts (s ++ t)) (hs : s ≠ []) : Starts s := by
  obtain ⟨b, r, heq, hb⟩ := h
  cases s with
  | nil => exact absurd rfl hs
  | cons x s =>
    rw [List.cons_append] at heq
    exact ⟨x, s, rfl, (List.cons.inj heq).1 ▸ hb⟩

theorem Starts.head {s : List UInt8} (h : Starts s) : ∀ b ∈ s.head?, isWs b = false := by
  obtain ⟨b, r, rfl, hb, -⟩ := h
  intro x hx
  obtain rfl : b = x := by simpa using hx
  exact hb

theorem ValueText.starts {T : Json → List UInt8 → Prop} {v : Json} {s : List UInt8}
    (h : ValueText T v s) : Starts s := by
  cases v with
  | null => exact ⟨110, [117, 108, 108], h, by decide, by decide, by decide⟩
  | bool b =>
    cases b with
    | true => exact ⟨116, [114, 117, 101], h, by decide, by decide, by decide⟩
    | false => exact ⟨102, [97, 108, 115, 101], h, by decide, by decide, by decide⟩
  | num tok =>
    obtain ⟨rfl, htok⟩ := h
    obtain ⟨b, r, rfl, hb⟩ := htok.head
    refine ⟨b, r, rfl, ?_⟩
    rcases hb with rfl | hb
    · decide
    · have key : ∀ b, isDigit b = true → isWs b = false ∧ b ≠ rbracket ∧ b ≠ rbrace :=
        forall_byte (by decide +kernel)
      exact key b hb
  | str raw => exact ⟨quote, raw ++ [quote], h.1, by decide, by decide, by decide⟩
  | arr items =>
    obtain ⟨body, rfl, -⟩ := h
    exact ⟨lbracket, body ++ [rbracket], rfl, by decide, by decide, by decide⟩
  | obj members =>
    obtain ⟨body, rfl, -⟩ := h
    exact ⟨lbrace, body ++ [rbrace], rfl, by decide, by decide, by decide⟩

theorem JsonText.starts {n : Nat} {v : Json} {s : List UInt8} (h : JsonText n v s) : Starts s := by
  cases n <;> exact ValueText.starts h

theorem IsText.starts {v : Json} {s : List UInt8} (h : IsText v s) : Starts s :=
  h.choose_spec.starts

theorem IsDocument.ne_nil {v : Json} {bytes : List UInt8} (h : IsDocument v bytes) : bytes ≠ [] := by
  obtain ⟨w₁, s, w₂, rfl, -, hs, -⟩ := h
  obtain ⟨b, r, rfl, -⟩ := hs.starts
  exact List.append_ne_nil_of_right_ne_nil _ (List.cons_ne_nil _ _)

/-- The whitespace in front of the first element, and the elements behind it. -/
theorem Elements.strip {T : Json → List UInt8 → Prop} (hT : ∀ v s, T v s → Starts s)
    {vs : List Json} {s : List UInt8} (h : Elements T vs s) :
    ∃ w s', IsWs w ∧ s = w ++ s' ∧ Elements T vs s' ∧ Starts s' := by
  cases h with
  | one h₁ hv h₂ => exact ⟨_, _, h₁, rfl, .one IsWs.nil hv h₂, (hT _ _ hv).append _⟩
  | cons h₁ hv h₂ hrest => exact ⟨_, _, h₁, rfl, .cons IsWs.nil hv h₂ hrest, (hT _ _ hv).append _⟩

theorem Members.strip {T : Json → List UInt8 → Prop} {ms : List (List UInt8 × Json)}
    {s : List UInt8} (h : Members T ms s) :
    ∃ w s', IsWs w ∧ s = w ++ s' ∧ Members T ms s' ∧ Starts s' := by
  have member : ∀ {m s}, Member T m s →
      ∃ w s', IsWs w ∧ s = w ++ s' ∧ Member T m s' ∧ Starts s' := by
    intro m s hm
    cases hm with
    | mk h₁ hraw h₂ h₃ hv h₄ =>
      exact ⟨_, _, h₁, rfl, .mk IsWs.nil hraw h₂ h₃ hv h₄, quote, _, rfl, by decide,
        by decide, by decide⟩
  cases h with
  | one hm =>
    obtain ⟨w, s', hw, rfl, hm', hst⟩ := member hm
    exact ⟨w, s', hw, rfl, .one hm', hst⟩
  | cons hm hrest =>
    obtain ⟨w, s', hw, rfl, hm', hst⟩ := member hm
    exact ⟨w, _, hw, List.append_assoc .., .cons hm' hrest, hst.append _⟩

/-- Commas separate elements, so there are at most as many as bytes, and one more. -/
theorem Elements.length_le {T : Json → List UInt8 → Prop} {vs : List Json} {s : List UInt8}
    (h : Elements T vs s) : vs.length ≤ s.length + 1 := by
  induction h with
  | one => simp
  | cons _ _ _ _ ih =>
    simp only [List.length_cons, List.length_append]
    omega

theorem Members.length_le {T : Json → List UInt8 → Prop} {ms : List (List UInt8 × Json)}
    {s : List UInt8} (h : Members T ms s) : ms.length ≤ s.length + 1 := by
  induction h with
  | one => simp
  | cons _ _ ih =>
    simp only [List.length_cons, List.length_append]
    omega

end Castrum
