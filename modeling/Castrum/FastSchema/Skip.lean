import Castrum.FastSchema.Cursor

/-!
# Castrum — skipping one value (`Cursor::skip_value`)

`skip_value(depth)` steps over one JSON value and refuses to nest beyond `MAX_DEPTH`. The recursion
is on the levels left, `MAX_DEPTH + 1 - depth`; the member and element loops run on a fuel that
the bytes left bound.

* `skipLevels_sound` — a success has consumed whitespace and exactly one value of the grammar,
  nested no deeper than the levels left;
* `skipLevels_complete` — every such value is skipped, and the cursor stops right after it;
* `skipValue_sound` / `skipValue_complete` — the same for `skip_value` at a depth.
-/

namespace Castrum

open Ascii

/-- A choice by the kind of a value, in the order in which its first byte is tried. -/
def Json.byHead {α : Type} (o a q t f n d : α) : Json → α
  | .obj _ => o
  | .arr _ => a
  | .str _ => q
  | .bool true => t
  | .bool false => f
  | .null => n
  | .num _ => d

namespace Cursor

/-- The member loop of `skip_value`. -/
def skipMembers (skip : Cursor → Bool × Cursor) : Nat → Cursor → Bool × Cursor
  | 0, c => (false, c)
  | n + 1, c =>
    match c.rawString with
    | (none, c) => (false, c)
    | (some _, c) =>
      match c.skipWs.eat colon with
      | (false, c) => (false, c)
      | (true, c) =>
        match skip c with
        | (false, c) => (false, c)
        | (true, c) =>
          match c.skipWs.eat rbrace with
          | (true, c) => (true, c)
          | (false, c) =>
            match c.eat comma with
            | (false, c) => (false, c)
            | (true, c) => skipMembers skip n c.skipWs

/-- The element loop of `skip_value`. -/
def skipElements (skip : Cursor → Bool × Cursor) : Nat → Cursor → Bool × Cursor
  | 0, c => (false, c)
  | n + 1, c =>
    match skip c with
    | (false, c) => (false, c)
    | (true, c) =>
      match c.skipWs.eat rbracket with
      | (true, c) => (true, c)
      | (false, c) =>
        match c.eat comma with
        | (false, c) => (false, c)
        | (true, c) => skipElements skip n c.skipWs

/-- `skip_value` with `n` levels left; `n = 0` is a depth beyond the cap. -/
def skipLevels : Nat → Cursor → Bool × Cursor
  | 0, c => (false, c)
  | n + 1, c =>
    let c := c.skipWs
    match c.peek with
    | none => (false, c)
    | some b =>
      if b = lbrace then
        match (c.adv 1).skipWs.eat rbrace with
        | (true, c) => (true, c)
        | (false, c) => skipMembers (skipLevels n) (c.rest.length + 1) c
      else if b = lbracket then
        match (c.adv 1).skipWs.eat rbracket with
        | (true, c) => (true, c)
        | (false, c) => skipElements (skipLevels n) (c.rest.length + 1) c
      else if b = quote then (c.rawString.1.isSome, c.rawString.2)
      else if b = 116 then c.eatToken trueTok
      else if b = 102 then c.eatToken falseTok
      else if b = 110 then c.eatToken nullTok
      else if b = minus ∨ isDigit b then (c.number.1.isSome, c.number.2)
      else (false, c)

/-- Skip one complete JSON value (`skip_value`). -/
def skipValue (c : Cursor) (depth : Nat) : Bool × Cursor := skipLevels (maxDepth + 1 - depth) c

/-! ## Soundness -/

/-- What a successful skip has consumed, for the grammar `T` of values. -/
def Skips (T : Json → Bytes → Prop) (c c' : Cursor) : Prop :=
  ∃ ws s v, IsWs ws ∧ T v s ∧ Eats c (ws ++ s) c'

section

variable {T : Json → Bytes → Prop} {skip : Cursor → Bool × Cursor}

/-- A successful element loop has read the elements and the closing bracket. Induction on the
fuel: one element, then the bracket or a comma and the rest. -/
theorem skipElements_sound (hskip : ∀ c c', skip c = (true, c') → Skips T c c') {n : Nat}
    {c c' : Cursor} (h : skipElements skip n c = (true, c')) :
    ∃ vs body, Elements T vs body ∧ Eats c (body ++ [rbracket]) c' := by
  induction n generalizing c with
  | zero => exact absurd h (by simp [skipElements])
  | succ n ih =>
    rw [skipElements] at h
    rcases hv : skip c with ⟨_ | _, c₁⟩
    · rw [hv] at h
      exact absurd h (by simp)
    rw [hv] at h
    obtain ⟨w₁, s, v, hw₁, hs, heats⟩ := hskip c c₁ hv
    obtain ⟨w₂, hw₂, hws, -⟩ := skipWs_spec c₁
    simp only at h
    -- An element is followed by the bracket, or by a comma and further elements.
    rcases hclose : c₁.skipWs.eat rbracket with ⟨_ | _, c₂⟩
    · rw [hclose] at h
      simp only at h
      obtain rfl := eat_eq_false hclose
      rcases hcomma : c₁.skipWs.eat comma with ⟨_ | _, c₃⟩
      · rw [hcomma] at h
        exact absurd h (by simp)
      rw [hcomma] at h
      obtain ⟨w₃, hw₃, hws₃, -⟩ := skipWs_spec c₃
      obtain ⟨vs, body, hbody, hrest⟩ := ih h
      refine ⟨v :: vs, w₁ ++ (s ++ (w₂ ++ comma :: (w₃ ++ body))),
        .cons hw₁ hs hw₂ (hbody.ws_append hw₃), ?_⟩
      have := (((heats.trans hws).trans (eat_eq_true hcomma)).trans hws₃).trans hrest
      simpa [List.append_assoc] using this
    · rw [hclose] at h
      cases h
      refine ⟨[v], w₁ ++ (s ++ w₂), .one hw₁ hs hw₂, ?_⟩
      have := (heats.trans hws).trans (eat_eq_true hclose)
      simpa [List.append_assoc] using this

/-- A successful member loop has read the members and the closing brace. -/
theorem skipMembers_sound (hskip : ∀ c c', skip c = (true, c') → Skips T c c') {n : Nat}
    {c c' : Cursor} (h : skipMembers skip n c = (true, c')) :
    ∃ ms body, Members T ms body ∧ Eats c (body ++ [rbrace]) c' := by
  induction n generalizing c with
  | zero => exact absurd h (by simp [skipMembers])
  | succ n ih =>
    rw [skipMembers] at h
    rcases hkey : c.rawString with ⟨_ | raw, c₀⟩
    · rw [hkey] at h
      exact absurd h (by simp)
    rw [hkey] at h
    obtain ⟨hraw, hkeyEats⟩ := rawString_sound hkey
    obtain ⟨w₂, hw₂, hws₂, -⟩ := skipWs_spec c₀
    simp only at h
    rcases hcolon : c₀.skipWs.eat colon with ⟨_ | _, c₁⟩
    · rw [hcolon] at h
      exact absurd h (by simp)
    rw [hcolon] at h
    simp only at h
    rcases hv : skip c₁ with ⟨_ | _, c₂⟩
    · rw [hv] at h
      exact absurd h (by simp)
    rw [hv] at h
    simp only at h
    obtain ⟨w₃, s, v, hw₃, hs, heats⟩ := hskip c₁ c₂ hv
    obtain ⟨w₄, hw₄, hws₄, -⟩ := skipWs_spec c₂
    -- the member up to the byte behind its value
    have hmember : Member T (raw, v)
        ([] ++ (quote :: (raw ++ (quote :: (w₂ ++ (colon :: (w₃ ++ (s ++ w₄)))))))) :=
      .mk IsWs.nil hraw hw₂ hw₃ hs hw₄
    have hmemberEats :=
      (((hkeyEats.trans hws₂).trans (eat_eq_true hcolon)).trans heats).trans hws₄
    rcases hclose : c₂.skipWs.eat rbrace with ⟨_ | _, c₃⟩
    · rw [hclose] at h
      simp only at h
      obtain rfl := eat_eq_false hclose
      rcases hcomma : c₂.skipWs.eat comma with ⟨_ | _, c₄⟩
      · rw [hcomma] at h
        exact absurd h (by simp)
      rw [hcomma] at h
      obtain ⟨w₅, hw₅, hws₅, -⟩ := skipWs_spec c₄
      obtain ⟨ms, body, hbody, hrest⟩ := ih h
      refine ⟨(raw, v) :: ms, _, .cons hmember (hbody.ws_append hw₅), ?_⟩
      have := ((hmemberEats.trans (eat_eq_true hcomma)).trans hws₅).trans hrest
      simpa [List.append_assoc] using this
    · rw [hclose] at h
      cases h
      refine ⟨[(raw, v)], _, .one hmember, ?_⟩
      have := hmemberEats.trans (eat_eq_true hclose)
      simpa [List.append_assoc] using this

end

/-- The grammar of the values nested below a value of level `n`. -/
def InnerText : Nat → Json → Bytes → Prop
  | 0 => fun _ _ => False
  | n + 1 => JsonText n

theorem jsonText_eq (n : Nat) : JsonText n = ValueText (InnerText n) := by
  cases n <;> rfl

/-- Eating the byte that was peeked at. -/
theorem adv_one_of_peek {c : Cursor} {b : UInt8} (h : c.peek = some b) : Eats c [b] (c.adv 1) := by
  cases hr : c.rest with
  | nil => rw [peek, hr] at h; exact absurd h (by simp)
  | cons x t =>
    rw [peek, hr] at h
    obtain rfl : x = b := by simpa using h
    exact Eats.of_rest (show c.rest = [x] ++ t from hr)

/-- **A successful skip has consumed one value** of the grammar, nested at most `n` deep where
`n + 1` levels were left. -/
theorem skipLevels_sound {n : Nat} {c c' : Cursor} (h : skipLevels n c = (true, c')) :
    Skips (InnerText n) c c' := by
  induction n generalizing c c' with
  | zero => exact absurd h (by simp [skipLevels])
  | succ n ih =>
    rw [skipLevels] at h
    obtain ⟨ws, hws, hwsEats, -⟩ := skipWs_spec c
    rcases hpeek : c.skipWs.peek with _ | b
    · rw [hpeek] at h
      exact absurd h (by simp)
    rw [hpeek] at h
    simp only at h
    -- every branch consumes some `s` from behind the whitespace
    have done : ∀ s v, Eats c.skipWs s c' → JsonText n v s → Skips (InnerText (n + 1)) c c' :=
      fun s v hs hv => ⟨ws, s, v, hws, hv, hwsEats.trans hs⟩
    rw [jsonText_eq] at done
    have hopen := adv_one_of_peek hpeek
    obtain ⟨w, hw, hwEats, -⟩ := skipWs_spec (c.skipWs.adv 1)
    split at h
    · next hb =>
      subst hb
      rcases hclose : (c.skipWs.adv 1).skipWs.eat rbrace with ⟨_ | _, c₁⟩
      · rw [hclose] at h
        obtain rfl := eat_eq_false hclose
        obtain ⟨ms, body, hbody, heats⟩ := skipMembers_sound (fun _ _ => ih) h
        refine done (lbrace :: ((w ++ body) ++ [rbrace])) (.obj ms) ?_
          ⟨_, rfl, .inr (hbody.ws_append hw)⟩
        simpa [List.append_assoc] using (hopen.trans hwEats).trans heats
      · rw [hclose] at h
        cases h
        refine done (lbrace :: (w ++ [rbrace])) (.obj []) ?_ ⟨_, rfl, .inl ⟨rfl, hw⟩⟩
        simpa [List.append_assoc] using (hopen.trans hwEats).trans (eat_eq_true hclose)
    · split at h
      · next hb =>
        subst hb
        rcases hclose : (c.skipWs.adv 1).skipWs.eat rbracket with ⟨_ | _, c₁⟩
        · rw [hclose] at h
          obtain rfl := eat_eq_false hclose
          obtain ⟨vs, body, hbody, heats⟩ := skipElements_sound (fun _ _ => ih) h
          refine done (lbracket :: ((w ++ body) ++ [rbracket])) (.arr vs) ?_
            ⟨_, rfl, .inr (hbody.ws_append hw)⟩
          simpa [List.append_assoc] using (hopen.trans hwEats).trans heats
        · rw [hclose] at h
          cases h
          refine done (lbracket :: (w ++ [rbracket])) (.arr []) ?_ ⟨_, rfl, .inl ⟨rfl, hw⟩⟩
          simpa [List.append_assoc] using (hopen.trans hwEats).trans (eat_eq_true hclose)
      · split at h
        · rcases hraw : c.skipWs.rawString with ⟨_ | raw, c₁⟩
          · rw [hraw] at h
            exact absurd h (by simp)
          rw [hraw] at h
          cases h
          obtain ⟨hbody, heats⟩ := rawString_sound hraw
          exact done _ (.str raw) heats ⟨rfl, hbody⟩
        · split at h
          · exact done _ (.bool true) (eatToken_eq_true h) rfl
          · split at h
            · exact done _ (.bool false) (eatToken_eq_true h) rfl
            · split at h
              · exact done _ .null (eatToken_eq_true h) rfl
              · split at h
                · rcases hnum : c.skipWs.number with ⟨_ | ⟨tok, i⟩, c₁⟩
                  · rw [hnum] at h
                    exact absurd h (by simp)
                  rw [hnum] at h
                  cases h
                  obtain ⟨htok, heats⟩ := number_sound hnum
                  exact done _ (.num tok) heats ⟨rfl, htok⟩
                · exact absurd h (by simp)

/-! ## Completeness -/

/-- `skip` steps over every text of `T`. -/
def Skipping (T : Json → Bytes → Prop) (skip : Cursor → Bool × Cursor) : Prop :=
  ∀ v c ws s t, IsWs ws → T v s → Ends v s t → c.rest = ws ++ (s ++ t) →
    ∃ c', skip c = (true, c') ∧ Eats c (ws ++ s) c'

/-- Whitespace in front of a byte that is none. -/
theorem skipWs_before {c : Cursor} {ws t : Bytes} {b : UInt8} (h : c.rest = ws ++ b :: t)
    (hws : IsWs ws) (hb : isWs b = false) : Eats c ws c.skipWs ∧ c.skipWs.rest = b :: t := by
  have heats := skipWs_complete h hws fun x hx => by
    obtain rfl : b = x := by simpa using hx
    exact hb
  exact ⟨heats, heats.rest_eq h⟩

section

variable {T : Json → Bytes → Prop} {skip : Cursor → Bool × Cursor}

theorem skipElements_complete (hskip : Skipping T skip) (hT : ∀ v s, T v s → Starts s) {n : Nat}
    {c : Cursor} {vs : List Json} {body t : Bytes} (hbody : Elements T vs body)
    (hc : c.rest = body ++ rbracket :: t) (hn : vs.length ≤ n) :
    ∃ c', skipElements skip n c = (true, c') ∧ Eats c (body ++ [rbracket]) c' := by
  induction n generalizing c vs body with
  | zero => exact absurd (List.length_eq_zero_iff.mp (Nat.le_zero.mp hn)) hbody.ne_nil
  | succ n ih =>
    cases hbody with
    | @one w₁ s w₂ v h₁ hv h₂ =>
      -- What stands behind an element stops a number, so that the skip does not read on.
      have hstop : Stops (w₂ ++ rbracket :: t) := .ws_append h₂ (.of_cons (.inr (.inl rfl)))
      have hrest : c.rest = w₁ ++ (s ++ (w₂ ++ rbracket :: t)) := by
        rw [hc]; simp only [List.append_assoc]
      obtain ⟨c₁, hrun, heats⟩ := hskip v c w₁ s _ h₁ hv (.inl hstop) hrest
      have hc₁ : c₁.rest = w₂ ++ rbracket :: t :=
        heats.rest_eq (by rw [hrest, List.append_assoc])
      obtain ⟨hws, hclose⟩ := skipWs_before hc₁ h₂ (by decide)
      refine ⟨c₁.skipWs.adv 1, ?_, ?_⟩
      · rw [skipElements, hrun]
        simp only [eat_complete hclose]
      · have := (heats.trans hws).trans (eat_eq_true (eat_complete hclose))
        simpa [List.append_assoc] using this
    | @cons w₁ s w₂ rest v vs h₁ hv h₂ hvs =>
      have hstop : Stops (w₂ ++ comma :: (rest ++ rbracket :: t)) :=
        .ws_append h₂ (.of_cons (.inl rfl))
      have hrest : c.rest = w₁ ++ (s ++ (w₂ ++ comma :: (rest ++ rbracket :: t))) := by
        rw [hc]; simp only [List.append_assoc, List.cons_append]
      obtain ⟨c₁, hrun, heats⟩ := hskip v c w₁ s _ h₁ hv (.inl hstop) hrest
      have hc₁ : c₁.rest = w₂ ++ comma :: (rest ++ rbracket :: t) :=
        heats.rest_eq (by rw [hrest, List.append_assoc])
      obtain ⟨hws, hsep⟩ := skipWs_before hc₁ h₂ (by decide)
      have hcommaEats := eat_eq_true (eat_complete hsep)
      obtain ⟨w, rest', hw, rfl, hvs', hst⟩ := hvs.strip hT
      have hc₂ := hcommaEats.rest_eq (t := w ++ (rest' ++ rbracket :: t))
        (by rw [hsep, List.append_assoc]; rfl)
      have hws₂ := skipWs_complete hc₂ hw (hst.append _).head
      obtain ⟨c', hloop, hloopEats⟩ :=
        ih hvs' (hws₂.rest_eq hc₂) (by rw [List.length_cons] at hn; omega)
      refine ⟨c', ?_, ?_⟩
      · rw [skipElements, hrun]
        simp only [eat_of_ne hsep (show comma ≠ rbracket by decide), eat_complete hsep]
        exact hloop
      · have := (((heats.trans hws).trans hcommaEats).trans hws₂).trans hloopEats
        simpa [List.append_assoc] using this

theorem skipMembers_complete (hskip : Skipping T skip) {n : Nat}
    {c : Cursor} {ms : List (Bytes × Json)} {body t : Bytes} (hbody : Members T ms body)
    (hst : Starts body) (hc : c.rest = body ++ rbrace :: t) (hn : ms.length ≤ n) :
    ∃ c', skipMembers skip n c = (true, c') ∧ Eats c (body ++ [rbrace]) c' := by
  induction n generalizing c ms body with
  | zero => exact absurd (List.length_eq_zero_iff.mp (Nat.le_zero.mp hn)) hbody.ne_nil
  | succ n ih =>
    -- one member, up to the byte `b` behind the whitespace after its value
    have member : ∀ m s b t', Member T m s → Starts s → isWs b = false → Stops (b :: t') →
        c.rest = s ++ b :: t' → ∃ raw c₀ c₁ c₂, c.rawString = (some raw, c₀) ∧
          c₀.skipWs.eat colon = (true, c₁) ∧ skip c₁ = (true, c₂) ∧
          Eats c s c₂.skipWs ∧ c₂.skipWs.rest = b :: t' := by
      intro m s b t' hm hs hb hstop hrest
      cases hm with
      | @mk w₁ w₂ w₃ s w₄ raw v h₁ hraw h₂ h₃ hv h₄ =>
        -- the text starts with the quote, so no whitespace precedes it
        have hnil : w₁ = [] := by
          cases w₁ with
          | nil => rfl
          | cons x w₁ =>
            obtain ⟨b, r, heq, hb, -⟩ := hs
            rw [List.cons_append] at heq
            rw [← (List.cons.inj heq).1, h₁ x (by simp)] at hb
            exact absurd hb (by simp)
        subst hnil
        have hrest₀ : c.rest = quote :: (raw ++ quote :: (w₂ ++ colon :: (w₃ ++ (s ++
            (w₄ ++ b :: t'))))) := by
          rw [hrest]; simp only [List.append_assoc, List.cons_append, List.nil_append]
        have hraw' := rawString_complete hrest₀ hraw
        have hkey := (rawString_sound hraw').2
        have hc₀ := hkey.rest_eq (t := w₂ ++ colon :: (w₃ ++ (s ++ (w₄ ++ b :: t'))))
          (by rw [hrest₀]; simp)
        obtain ⟨hws₂, hcol⟩ := skipWs_before hc₀ h₂ (by decide)
        have hcolEats := eat_eq_true (eat_complete hcol)
        have hc₁ := hcolEats.rest_eq (t := w₃ ++ (s ++ (w₄ ++ b :: t'))) hcol
        obtain ⟨c₂, hrun, heats⟩ := hskip v _ w₃ s _ h₃ hv (.inl (.ws_append h₄ hstop)) hc₁
        have hc₂ := heats.rest_eq (t := w₄ ++ b :: t') (by rw [hc₁, List.append_assoc])
        obtain ⟨hws₄, hb'⟩ := skipWs_before hc₂ h₄ hb
        refine ⟨raw, _, _, c₂, hraw', eat_complete hcol, hrun, ?_, hb'⟩
        have := (((hkey.trans hws₂).trans hcolEats).trans heats).trans hws₄
        simpa [List.append_assoc] using this
    cases hbody with
    | @one m s hm =>
      obtain ⟨raw, c₀, c₁, c₂, hraw, hcol, hrun, heats, hclose⟩ :=
        member m _ rbrace t hm hst (by decide) (.of_cons (.inr (.inr rfl))) hc
      refine ⟨c₂.skipWs.adv 1, ?_, ?_⟩
      · rw [skipMembers, hraw]
        simp only [hcol, hrun, eat_complete hclose]
      · exact heats.trans (eat_eq_true (eat_complete hclose))
    | @cons m ms s rest hm hms =>
      have hst' : Starts s := hst.of_append hm.ne_nil
      obtain ⟨raw, c₀, c₁, c₂, hraw, hcol, hrun, heats, hsep⟩ :=
        member m _ comma (rest ++ rbrace :: t) hm hst' (by decide) (.of_cons (.inl rfl))
          (by rw [hc, List.append_assoc, List.cons_append])
      have hcommaEats := eat_eq_true (eat_complete hsep)
      obtain ⟨w, rest', hw, rfl, hms', hst''⟩ := hms.strip
      have hc₃ := hcommaEats.rest_eq (t := w ++ (rest' ++ rbrace :: t))
        (by rw [hsep, List.append_assoc]; rfl)
      have hws₃ := skipWs_complete hc₃ hw (hst''.append _).head
      obtain ⟨c', hloop, hloopEats⟩ :=
        ih hms' hst'' (hws₃.rest_eq hc₃) (by rw [List.length_cons] at hn; omega)
      refine ⟨c', ?_, ?_⟩
      · rw [skipMembers, hraw]
        simp only [hcol, hrun, eat_of_ne hsep (show comma ≠ rbrace by decide), eat_complete hsep]
        exact hloop
      · have := ((heats.trans hcommaEats).trans hws₃).trans hloopEats
        simpa [List.append_assoc] using this

end

theorem InnerText.starts {n : Nat} {v : Json} {s : Bytes} (h : InnerText n v s) : Starts s := by
  cases n with
  | zero => exact h.elim
  | succ n => exact JsonText.starts h

/-- The bytes behind an opening byte. -/
theorem adv_rest {c : Cursor} {x y : UInt8} {body t : Bytes}
    (hc : c.rest = (x :: (body ++ [y])) ++ t) : (c.adv 1).rest = body ++ y :: t := by
  rw [Cursor.rest_adv, hc]
  simp

theorem number_head {T : Json → Bytes → Prop} {tok s r : Bytes} {b : UInt8}
    (hv : ValueText T (.num tok) s) (hb : s = b :: r) : b = minus ∨ isDigit b = true := by
  obtain ⟨rfl, htok⟩ := hv
  obtain ⟨b', r', htb, hb'⟩ := htok.head
  obtain rfl : b' = b := by rw [hb] at htb; exact (List.cons.inj htb).1.symm
  exact hb'

/-- A digit or a minus sign is none of the other opening bytes. -/
theorem number_head_ne {b : UInt8} (h : b = minus ∨ isDigit b = true) :
    b ≠ lbrace ∧ b ≠ lbracket ∧ b ≠ quote ∧ b ≠ 116 ∧ b ≠ 102 ∧ b ≠ 110 := by
  refine ⟨?_, ?_, ?_, ?_, ?_, ?_⟩ <;> rintro rfl <;> exact absurd h (by decide)

/-- **The first byte of a text** announces the kind of its value. -/
theorem byHead_of_text {α : Type} {T : Json → Bytes → Prop} {v : Json} {s r : Bytes} {b : UInt8}
    (hv : ValueText T v s) (hb : s = b :: r) (o a q t f n d : α) :
    -- One case for each kind of value: its text has a fixed first byte, or is a number.
    (if b = lbrace then o else if b = lbracket then a else if b = quote then q else if b = 116 then t
      else if b = 102 then f else if b = 110 then n else d) = v.byHead o a q t f n d := by
  cases v with
  | null =>
    obtain rfl := hv
    obtain ⟨rfl, -⟩ := List.cons.inj hb
    rfl
  | bool x =>
    obtain rfl := hv
    cases x with
    | true =>
      obtain ⟨rfl, -⟩ := List.cons.inj hb
      rfl
    | false =>
      obtain ⟨rfl, -⟩ := List.cons.inj hb
      rfl
  | num tok =>
    obtain ⟨h₁, h₂, h₃, h₄, h₅, h₆⟩ := number_head_ne (number_head hv hb)
    rw [if_neg h₁, if_neg h₂, if_neg h₃, if_neg h₄, if_neg h₅, if_neg h₆]
    rfl
  | str raw =>
    obtain ⟨rfl, -⟩ := hv
    obtain ⟨rfl, -⟩ := List.cons.inj hb
    rfl
  | arr items =>
    obtain ⟨body, rfl, -⟩ := hv
    obtain ⟨rfl, -⟩ := List.cons.inj hb
    rfl
  | obj ms =>
    obtain ⟨body, rfl, -⟩ := hv
    obtain ⟨rfl, -⟩ := List.cons.inj hb
    rfl

/-- What `skip_value` does behind the whitespace, by the kind of the value that stands there. -/
theorem skipLevels_eq {T : Json → Bytes → Prop} {n : Nat} {c : Cursor} {ws s t : Bytes} {v : Json}
    (hv : ValueText T v s) (hws : IsWs ws) (hc : c.rest = ws ++ (s ++ t)) :
    skipLevels (n + 1) c = v.byHead
      (match (c.skipWs.adv 1).skipWs.eat rbrace with
        | (true, c) => (true, c)
        | (false, c) => skipMembers (skipLevels n) (c.rest.length + 1) c)
      (match (c.skipWs.adv 1).skipWs.eat rbracket with
        | (true, c) => (true, c)
        | (false, c) => skipElements (skipLevels n) (c.rest.length + 1) c)
      (c.skipWs.rawString.1.isSome, c.skipWs.rawString.2)
      (c.skipWs.eatToken trueTok) (c.skipWs.eatToken falseTok) (c.skipWs.eatToken nullTok)
      (c.skipWs.number.1.isSome, c.skipWs.number.2) := by
  obtain ⟨b, r, hsb, hb, -⟩ := hv.starts
  have hrest : c.rest = ws ++ b :: (r ++ t) := by rw [hc, hsb, List.cons_append]
  have hpeek : c.skipWs.peek = some b := by
    rw [peek, (skipWs_before hrest hws hb).2, List.head?_cons]
  rw [skipLevels]
  simp only [hpeek]
  rw [byHead_of_text hv hsb]
  cases v with
  | num tok => exact if_pos (number_head hv hsb)
  | bool x => cases x <;> rfl
  | _ => rfl

/-! ### Containers -/

/-- Behind an opening byte: whitespace and the closing byte. -/
theorem inside_closed {c : Cursor} {close : UInt8} {body t : Bytes} (hclose : isWs close = false)
    (hc : c.rest = body ++ close :: t) (hws : IsWs body) :
    c.skipWs.eat close = (true, c.skipWs.adv 1) ∧ Eats c (body ++ [close]) (c.skipWs.adv 1) := by
  obtain ⟨heats, hend⟩ := skipWs_before hc hws hclose
  exact ⟨eat_complete hend, heats.trans (eat_eq_true (eat_complete hend))⟩

/-- Behind an opening byte: whitespace and the first part, with fuel for one turn per byte. -/
theorem inside_starts {c : Cursor} {close : UInt8} {w body t : Bytes}
    (hclose : close = rbrace ∨ close = rbracket) (hc : c.rest = (w ++ body) ++ close :: t) (hw : IsWs w)
    (hst : Starts body) :
    c.skipWs.eat close = (false, c.skipWs) ∧ Eats c w c.skipWs ∧ c.skipWs.rest = body ++ close :: t ∧
      (∀ k, k ≤ body.length + 1 → k ≤ c.skipWs.rest.length + 1) ∧
      ∀ c', Eats c.skipWs (body ++ [close]) c' → Eats c ((w ++ body) ++ [close]) c' := by
  rw [List.append_assoc] at hc
  have heats := skipWs_complete hc hw (hst.append _).head
  have hrest := heats.rest_eq hc
  obtain ⟨x, y, rfl, -, hbracket, hbrace⟩ := hst
  refine ⟨eat_of_ne (by rw [hrest, List.cons_append]) ?_, heats, hrest, fun k hk => ?_, fun c' h => ?_⟩
  · rcases hclose with rfl | rfl
    · exact hbrace
    · exact hbracket
  · rw [hrest, List.length_append]
    omega
  · rw [List.append_assoc]
    exact heats.trans h

/-- **Every value that nests no deeper than the levels left is skipped**, and the cursor stops
right after it. Induction on the levels; one case per kind of value. -/
theorem skipLevels_complete (n : Nat) : Skipping (InnerText n) (skipLevels n) := by
  induction n with
  | zero => exact fun _ _ _ _ _ _ hf => hf.elim
  | succ n ih =>
    intro v c ws s t hws hv ht hc
    change JsonText n v s at hv
    have hwsEats := skipWs_complete hc hws (hv.starts.append t).head
    rw [jsonText_eq] at hv
    rw [skipLevels_eq hv hws hc]
    have hcs := hwsEats.rest_eq hc
    generalize c.skipWs = c' at hwsEats hcs ⊢
    -- It is enough to skip the value itself, from behind the whitespace.
    suffices h : ∃ c'', _ = (true, c'') ∧ Eats c' s c'' by
      obtain ⟨c'', hrun, heats⟩ := h
      exact ⟨c'', hrun, hwsEats.trans heats⟩
    cases v with
    | null =>
      obtain rfl := hv
      exact ⟨_, eatToken_complete hcs, Eats.of_rest hcs⟩
    | bool x =>
      obtain rfl := hv
      cases x with
      | true => exact ⟨_, eatToken_complete hcs, Eats.of_rest hcs⟩
      | false => exact ⟨_, eatToken_complete hcs, Eats.of_rest hcs⟩
    | num tok =>
      obtain ⟨rfl, htok⟩ := hv
      obtain ⟨i, hnum⟩ := number_complete hcs htok ht
      exact ⟨c'.adv s.length, by rw [Json.byHead, hnum]; rfl, Eats.of_rest hcs⟩
    | str raw =>
      obtain ⟨rfl, hraw⟩ := hv
      have hrun := rawString_complete (c := c') (t := t) (by rw [hcs]; simp) hraw
      exact ⟨c'.adv (raw.length + 2), by rw [Json.byHead, hrun]; rfl, (rawString_sound hrun).2⟩
    | arr items =>
      obtain ⟨body, rfl, hbody⟩ := hv
      have hopen := eat_eq_true (eat_complete (b := lbracket) (t := body ++ [rbracket] ++ t) hcs)
      rcases hbody with ⟨-, hw⟩ | hel
      · obtain ⟨heat, heats⟩ := inside_closed (by decide) (adv_rest hcs) hw
        exact ⟨_, by rw [Json.byHead, heat], hopen.trans heats⟩
      · obtain ⟨w, body', hw, rfl, hel', hst⟩ := hel.strip (fun v s h => InnerText.starts h)
        obtain ⟨hne, -, hin, hfuel, hglue⟩ := inside_starts (.inr rfl) (adv_rest hcs) hw hst
        obtain ⟨c'', hloop, heats⟩ :=
          skipElements_complete ih (fun v s h => InnerText.starts h) hel' hin (hfuel _ hel'.length_le)
        exact ⟨c'', by rw [Json.byHead, hne]; exact hloop, hopen.trans (hglue _ heats)⟩
    | obj members =>
      obtain ⟨body, rfl, hbody⟩ := hv
      have hopen := eat_eq_true (eat_complete (b := lbrace) (t := body ++ [rbrace] ++ t) hcs)
      rcases hbody with ⟨-, hw⟩ | hms
      · obtain ⟨heat, heats⟩ := inside_closed (by decide) (adv_rest hcs) hw
        exact ⟨_, by rw [Json.byHead, heat], hopen.trans heats⟩
      · obtain ⟨w, body', hw, rfl, hms', hst⟩ := hms.strip
        obtain ⟨hne, -, hin, hfuel, hglue⟩ := inside_starts (.inl rfl) (adv_rest hcs) hw hst
        obtain ⟨c'', hloop, heats⟩ := skipMembers_complete ih hms' hst hin (hfuel _ hms'.length_le)
        exact ⟨c'', by rw [Json.byHead, hne]; exact hloop, hopen.trans (hglue _ heats)⟩

/-! ## Levels left

The skip counts levels down where the walk counts its depth up. -/

/-- The levels left at a depth within the cap. -/
theorem innerText_levels {depth : Nat} (h : depth ≤ maxDepth) :
    InnerText (maxDepth + 1 - depth) = JsonText (maxDepth - depth) := by
  rw [show maxDepth + 1 - depth = (maxDepth - depth) + 1 by omega]
  rfl

theorem skipValue_sound {c c' : Cursor} {depth : Nat} (h : c.skipValue depth = (true, c')) :
    depth ≤ maxDepth ∧ Skips (JsonText (maxDepth - depth)) c c' := by
  have hskip := skipLevels_sound h
  have hle : depth ≤ maxDepth := by
    by_contra hgt
    rw [show maxDepth + 1 - depth = 0 by omega] at hskip
    obtain ⟨_, _, _, _, hf, _⟩ := hskip
    exact hf
  rw [innerText_levels hle] at hskip
  exact ⟨hle, hskip⟩

/-- What was skipped ends where the cursor stops. -/
theorem skipValue_ends {c c' : Cursor} {depth : Nat} (h : c.skipValue depth = (true, c')) :
    ∃ ws s v, IsWs ws ∧ IsText v s ∧ depth + v.height ≤ maxDepth ∧ Eats c (ws ++ s) c' ∧
      Ends v s c'.rest := by
  obtain ⟨hdepth, ws, s, v, hws, hv, heats⟩ := skipValue_sound h
  refine ⟨ws, s, v, hws, ⟨_, hv⟩, by have := hv.height_le; omega, heats, .inr ?_⟩
  rintro tok rfl
  obtain ⟨rfl, htok⟩ := (isText_iff _ _).mp ⟨_, hv⟩
  -- a number is skipped by scanning it, and the scan is what the cursor moved by
  have hrest : c.rest = ws ++ (s ++ c'.rest) := by rw [heats.1, List.append_assoc]
  have hwsEats := skipWs_complete hrest hws ((IsText.starts ⟨_, hv⟩).append _).head
  have hscan := hwsEats.rest_eq hrest
  rw [skipValue, show maxDepth + 1 - depth = (maxDepth - depth) + 1 by omega,
    skipLevels_eq ((isText_iff _ _).mp ⟨_, hv⟩) hws hrest, Json.byHead] at h
  simp only [number, hscan] at h
  split at h
  · next hok =>
    refine ⟨hok, ?_⟩
    have hpos := congrArg (fun p => p.2.pos) h
    have hlen := heats.pos_eq
    rw [List.length_append] at hlen
    simp only [adv, hwsEats.pos_eq] at hpos
    omega
  · exact absurd (congrArg Prod.fst h) (by simp)

/-- A value that fits below `depth` is skipped. -/
theorem skipValue_complete {c : Cursor} {depth : Nat} {v : Json} {ws s t : Bytes}
    (hdepth : depth + v.height ≤ maxDepth) (hws : IsWs ws) (hv : IsText v s) (ht : Ends v s t)
    (hc : c.rest = ws ++ (s ++ t)) :
    ∃ c', c.skipValue depth = (true, c') ∧ Eats c (ws ++ s) c' := by
  have htext : JsonText (maxDepth - depth) v s := hv.choose_spec.of_height_le (by omega)
  have := skipLevels_complete (maxDepth + 1 - depth) v c ws s t hws
  rw [innerText_levels (by omega)] at this
  exact this htext ht hc

/-- The same without whitespace in front. -/
theorem skipValue_at {c : Cursor} {depth : Nat} {v : Json} {s t : Bytes}
    (hdepth : depth + v.height ≤ maxDepth) (hv : IsText v s) (ht : Ends v s t)
    (hc : c.rest = s ++ t) : ∃ c', c.skipValue depth = (true, c') ∧ Eats c s c' :=
  skipValue_complete hdepth IsWs.nil hv ht hc

/-- Where a text is known, a successful skip has consumed it, at whatever depth. -/
theorem skipValue_text {c c' : Cursor} {depth : Nat} {v : Json} {ws s t : Bytes}
    (h : c.skipValue depth = (true, c')) (hws : IsWs ws) (hv : IsText v s) (ht : Ends v s t)
    (hc : c.rest = ws ++ (s ++ t)) : Eats c (ws ++ s) c' := by
  obtain ⟨ws', s', v', hws', hv', -, heats', ht'⟩ := skipValue_ends h
  -- what was skipped and what is known are both skipped where there are levels for either
  have levels : ∀ {x : Json} {y : Bytes}, IsText x y → x.height ≤ max v.height v'.height →
      InnerText (max v.height v'.height + 1) x y := fun hx hle => hx.choose_spec.of_height_le hle
  obtain ⟨c₁, hrun, heats⟩ :=
    skipLevels_complete _ v c ws s t hws (levels hv (le_max_left _ _)) ht hc
  obtain ⟨c₂, hrun', heats₂⟩ := skipLevels_complete _ v' c ws' s' c'.rest hws'
    (levels hv' (le_max_right _ _)) ht' (by rw [heats'.1, List.append_assoc])
  obtain rfl : c₁ = c₂ := congrArg Prod.snd (hrun.symm.trans hrun')
  rwa [← heats₂.det heats']

theorem skipValue_of_text {c c' : Cursor} {depth : Nat} {v : Json} {s t : Bytes}
    (h : c.skipValue depth = (true, c')) (hv : IsText v s) (ht : Ends v s t)
    (hc : c.rest = s ++ t) : Eats c s c' :=
  skipValue_text h IsWs.nil hv ht hc

end Cursor

end Castrum
