import Castrum.FastSchema.Judges

/-!
# Castrum — where a walk fails in silence

Some exits of the walk record nothing: a container whose keys, colons, commas or closing byte are
not there, and a value that is skipped and cannot be. `Mute n node c` says that such an exit is the
first failure of the walk of `node` at `c`, with `n` levels left below the cap. It is told by the
bytes and by the meaning of the schemas: what stands before the exit is read, and satisfies what
the walk asks of it as far as the cap does not cut that off.

* `Reads` — a value is read from one cursor to another;
* `MembersMute`, `ElementsMute`, `KindMute`, `CombMute`, `NodeMute` — the silent exits of a level;
* `Mute` — those of a walk;
* `Nests` — a schema that nests no deeper than the levels that are left.
-/

namespace Castrum

open Ascii

open Cursor (Eats Ends)

/-- A value with `A` is read from `c` to `c'`. -/
def Reads (A : Json → Prop) (c c' : Cursor) : Prop :=
  ∃ ws s v, IsWs ws ∧ IsText v s ∧ Ends v s c'.rest ∧ Eats c (ws ++ s) c' ∧ A v

section

variable {S : Oracles}

/-- The schemas of one member, in the order they are walked. -/
def memberSchemas (o : FastObject S.Regex (FastNode S.Regex)) (key : Bytes) :
    List (FastNode S.Regex) :=
  (o.prop? key).toList ++ ((o.patterns.filter fun p => covers S key p.1).map Prod.snd ++
    if (o.prop? key).isNone && o.patterns.all fun p => !covers S key p.1 then
      match o.additional with
      | .schema sub => [sub]
      | _ => []
    else [])

variable (W : FastNode S.Regex → Json → Prop) (Q : FastNode S.Regex → Cursor → Prop) (d : Nat)

/-- One of the schemas is mute at `raw`, and those before it pass. -/
def SomeMute (subs : List (FastNode S.Regex)) (raw : Cursor) : Prop :=
  ∃ pre sub post, subs = pre ++ sub :: post ∧ (∀ p ∈ pre, ∃ c, Reads (W p) raw c) ∧ Q sub raw

/-! ## Members -/

/-- The value of a member is skipped in vain, or one of its schemas is mute. -/
inductive ValueMute (o : FastObject S.Regex (FastNode S.Regex)) (key : Bytes) (c : Cursor) : Prop
  | skip : (o.patterns ≠ [] ∨ o.prop? key = none ∧ o.additional = .allow) →
      (c.skipValue d).1 = false → ValueMute o key c
  | value {sub : FastNode S.Regex} : o.patterns = [] → sub ∈ memberSchemas o key → Q sub c →
      ValueMute o key c
  | slice {c' : Cursor} : o.patterns ≠ [] → c.skipValue d = (true, c') →
      SomeMute W Q (memberSchemas o key) (c'.slice c.pos) → ValueMute o key c

/-- Behind the key `raw` and its colon. -/
def MemberAt (c : Cursor) (raw : Bytes) (c₁ : Cursor) : Prop :=
  ∃ c₀, c.skipWs.rawString = (some raw, c₀) ∧ c₀.skipWs.eat colon = (true, c₁)

/-- The members from `c` on: a key, a colon, or what has to follow a member is not there, or a
value is mute. The members before it are read, and pass. -/
inductive MembersMute (o : FastObject S.Regex (FastNode S.Regex)) : Cursor → Prop
  | key {c : Cursor} : c.skipWs.rawString.1 = none → MembersMute o c
  | colon {c c₀ : Cursor} {raw : Bytes} : c.skipWs.rawString = (some raw, c₀) →
      (c₀.skipWs.eat colon).1 = false → MembersMute o c
  | value {c c₁ : Cursor} {raw : Bytes} : MemberAt c raw c₁ →
      ValueMute W Q d o (textOf raw) c₁.skipWs → MembersMute o c
  | stop {c c₁ c₂ : Cursor} {raw : Bytes} : MemberAt c raw c₁ →
      Reads (MemberHolds S W o (textOf raw)) c₁.skipWs c₂ → (c₂.skipWs.eat rbrace).1 = false →
      (c₂.skipWs.eat comma).1 = false → MembersMute o c
  | next {c c₁ c₂ c₃ : Cursor} {raw : Bytes} : MemberAt c raw c₁ →
      Reads (MemberHolds S W o (textOf raw)) c₁.skipWs c₂ → c₂.skipWs.eat comma = (true, c₃) →
      MembersMute o c₃ → MembersMute o c

/-! ## Elements -/

/-- `uniqueItems` has not met the element among `seen`, and has then seen the last. -/
inductive Fresh (S : Oracles) : Option (List Value) → Bytes → Option (List Value) → Prop
  | off {text : Bytes} : Fresh S none text none
  | unread {seen : List Value} {text : Bytes} : S.fromSlice text = none →
      Fresh S (some seen) text (some seen)
  | new {seen seen' : List Value} {text : Bytes} {x : Value} : S.fromSlice text = some x →
      uniqueStep seen x = (true, seen') → Fresh S (some seen) text (some seen')

/-- The elements from the `i`-th on, none of them one too many or met before. -/
inductive ElementsMute (a : FastArray (FastNode S.Regex)) :
    Nat → Option (List Value) → Cursor → Prop
  | skip {i : Nat} {seen : Option (List Value)} {c : Cursor} : a.overflow (i + 1) = none →
      a.schemaAt S i = .allow → (c.skipValue d).1 = false → ElementsMute a i seen c
  | element {i : Nat} {seen : Option (List Value)} {c : Cursor} {sub : FastNode S.Regex} :
      a.overflow (i + 1) = none → a.schemaAt S i = .schema sub → Q sub c → ElementsMute a i seen c
  | stop {i : Nat} {seen seen' : Option (List Value)} {c c₁ : Cursor} : a.overflow (i + 1) = none →
      Reads (AdditionalHolds S W (a.schemaAt S i)) c c₁ → Fresh S seen (c₁.slice c.pos).data seen' →
      (c₁.skipWs.eat rbracket).1 = false → (c₁.skipWs.eat comma).1 = false → ElementsMute a i seen c
  | next {i : Nat} {seen seen' : Option (List Value)} {c c₁ c₂ : Cursor} : a.overflow (i + 1) = none →
      Reads (AdditionalHolds S W (a.schemaAt S i)) c c₁ → Fresh S seen (c₁.slice c.pos).data seen' →
      c₁.skipWs.eat comma = (true, c₂) → ElementsMute a (i + 1) seen' c₂.skipWs →
      ElementsMute a i seen c

/-! ## One level

One constructor for each exit of the walk that records nothing. -/

/-- The value at `c`, which is a container: a scalar that cannot be read is recorded. -/
inductive KindMute (node : FastNode S.Regex) (c : Cursor) : Prop
  | skipObject : c.peek = some lbrace → node.obj = none → (c.skipValue d).1 = false →
      KindMute node c
  | object {o : FastObject S.Regex (FastNode S.Regex)} : c.peek = some lbrace →
      node.obj = some o → ((c.adv 1).skipWs.eat rbrace).1 = false →
      MembersMute W Q d o (c.adv 1).skipWs → KindMute node c
  | skipArray : c.peek = some lbracket → node.arr = none → (c.skipValue d).1 = false →
      KindMute node c
  | array {a : FastArray (FastNode S.Regex)} : c.peek = some lbracket → node.arr = some a →
      ((c.adv 1).skipWs.eat rbracket).1 = false → ElementsMute W Q d a 0 a.init.uniqueSeen (c.adv 1).skipWs →
      KindMute node c

/-- The combinators over a slice; `anyOf`, `oneOf` and `not` record their own verdict. -/
inductive CombMute (node : FastNode S.Regex) (raw : Cursor) : Prop
  | allOf {comb : FastComb (FastNode S.Regex)} : node.comb = some comb →
      SomeMute W Q comb.allOf raw → CombMute node raw
  | thenNode {comb : FastComb (FastNode S.Regex)} {i sub : FastNode S.Regex}
      {e : Option (FastNode S.Regex)} {c : Cursor} : node.comb = some comb →
      comb.ifThenElse = some (i, some sub, e) → Reads (W i) raw c → Q sub raw → CombMute node raw
  | elseNode {comb : FastComb (FastNode S.Regex)} {i sub : FastNode S.Regex}
      {t : Option (FastNode S.Regex)} : node.comb = some comb →
      comb.ifThenElse = some (i, t, some sub) → Q sub raw → CombMute node raw

/-- One level: the node does not refuse the value by its first byte, and what is asked of the value
itself is met. -/
inductive NodeMute (node : FastNode S.Regex) (c : Cursor) : Prop
  | kind {b : UInt8} : node.never = false → c.skipWs.peek = some b → node.typeFault b = none →
      node.value = none → KindMute W Q d node c.skipWs → NodeMute node c
  | comb {b : UInt8} {c' : Cursor} : node.never = false → c.skipWs.peek = some b →
      node.typeFault b = none → node.value = none → Reads (fun _ => True) c.skipWs c' →
      CombMute W Q node (c'.slice c.skipWs.pos) → NodeMute node c
  | value {b : UInt8} {c' : Cursor} {value : ValueConstraint} {x : Value} : node.never = false →
      c.skipWs.peek = some b → node.typeFault b = none → node.value = some value →
      c.skipWs.skipValue d = (true, c') →
      S.fromSlice (c'.slice c.skipWs.pos).data = some x → value.accepts x = true →
      (KindMute W Q d node (c'.slice c.skipWs.pos) ∨ CombMute W Q node (c'.slice c.skipWs.pos)) →
      NodeMute node c

end

/-! ## The walk -/

section

variable (S : Oracles) (dom : Json → Option Value)

variable {S}

/-- The sub-schemas of the node nest less than `n` deep. -/
def Nests : Nat → FastNode S.Regex → Prop
  | 0, _ => False
  | n + 1, node => ∀ sub, node.Sub sub → Nests n sub

end

end Castrum
