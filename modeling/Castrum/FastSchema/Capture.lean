import Castrum.Util.Bytes

/-!
# Castrum — one-pass derive capture (`rust/json/fast_schema/capture.rs`)

Derive targets are object-key paths, compiled into a trie. During the walk a stack of
`(node, alive)` pairs follows the object nesting; a value or an array length is recorded at the
top of the stack when that trie node is the end of a target, the first time only.
-/

namespace Castrum

inductive CaptureKind where
  | value
  | length
  deriving DecidableEq

/-- An object-key path and what to capture at its end. -/
structure TargetPath where
  steps : List Bytes
  kind : CaptureKind
  deriving DecidableEq

/-- Decode JSON-pointer escapes (`~1` → `/`, `~0` → `~`); another letter after `~` is dropped. -/
def unescapeToken : Bytes → Bytes
  | 126 :: b :: rest =>
    (if b = 49 then 47 else if b = 48 then 126 else 126) :: unescapeToken rest
  | b :: rest => b :: unescapeToken rest
  | [] => []

/-- `str::split('/')`. -/
def splitSlash : Bytes → List Bytes
  | [] => [[]]
  | b :: rest =>
    if b = 47 then [] :: splitSlash rest
    else
      match splitSlash rest with
      | tok :: toks => (b :: tok) :: toks
      | [] => [[b]]

def isIndexToken (tok : Bytes) : Bool :=
  !tok.isEmpty && (tok == [45] || tok.all (fun b => 48 ≤ b && b ≤ 57))

/-- Parse a JSON pointer into a target (`parse_target`); index steps and the root are refused. -/
def parseTarget (pointer : Bytes) : Option TargetPath :=
  match pointer with
  | 47 :: rest =>
    let tokens := splitSlash rest
    match tokens with
    | [] => none
    | first :: _ =>
      if first.isEmpty then none
      else
        let isLength := tokens.getLast? == some [45]
        let body := if isLength then tokens.dropLast else tokens
        if body.isEmpty || body.any isIndexToken then none
        else some ⟨body.map unescapeToken, if isLength then .length else .value⟩
  | _ => none

structure TrieNode where
  children : List (Bytes × Nat)
  valueTarget : Option Nat
  lengthTarget : Option Nat

def TrieNode.new : TrieNode := ⟨[], none, none⟩

/-- In-progress capture state. -/
structure Capture where
  arena : List TrieNode
  stack : List (Nat × Bool)
  matched : List Bool
  ranges : List (Nat × Nat)
  lengths : List Nat

def nodeAt (arena : List TrieNode) (i : Nat) : TrieNode := arena.getD i TrieNode.new

/-- Follow one step of a target from `node`, adding a trie node when it is new. -/
def addStep (arena : List TrieNode) (node : Nat) (key : Bytes) : List TrieNode × Nat :=
  match (nodeAt arena node).children.lookup key with
  | some idx => (arena, idx)
  | none =>
    let idx := arena.length
    let n := nodeAt arena node
    ((arena.set node { n with children := n.children ++ [(key, idx)] }) ++ [TrieNode.new], idx)

def addSteps (arena : List TrieNode) (node : Nat) : List Bytes → List TrieNode × Nat
  | [] => (arena, node)
  | key :: keys =>
    let r := addStep arena node key
    addSteps r.1 r.2 keys

/-- Add target number `ti`; the last target of a path wins its end node. -/
def addTarget (arena : List TrieNode) (ti : Nat) (t : TargetPath) : List TrieNode :=
  let r := addSteps arena 0 t.steps
  let n := nodeAt r.1 r.2
  match t.kind with
  | .value => r.1.set r.2 { n with valueTarget := some ti }
  | .length => r.1.set r.2 { n with lengthTarget := some ti }

def addTargets (arena : List TrieNode) (ti : Nat) : List TargetPath → List TrieNode
  | [] => arena
  | t :: ts => addTargets (addTarget arena ti t) (ti + 1) ts

def Capture.new (targets : List TargetPath) : Capture where
  arena := addTargets [TrieNode.new] 0 targets
  stack := [(0, true)]
  matched := targets.map fun _ => false
  ranges := targets.map fun _ => (0, 0)
  lengths := targets.map fun _ => 0

/-- Descend the trie for an object member key (`enter_key`). -/
def Capture.enterKey (cap : Capture) (key : Bytes) : Capture :=
  let top := cap.stack.getLast?.getD (0, true)
  if top.2 = false then { cap with stack := cap.stack ++ [(top.1, false)] }
  else
    match (nodeAt cap.arena top.1).children.lookup key with
    | some next => { cap with stack := cap.stack ++ [(next, true)] }
    | none => { cap with stack := cap.stack ++ [(top.1, false)] }

/-- Leave the current object nesting level (`exit_key`). -/
def Capture.exitKey (cap : Capture) : Capture :=
  if cap.stack.length > 1 then { cap with stack := cap.stack.dropLast } else cap

/-- Record a value range at the current node (`record_value`). -/
def Capture.recordValue (cap : Capture) (start stop : Nat) : Capture :=
  let top := cap.stack.getLast?.getD (0, false)
  if top.2 = false then cap
  else
    match (nodeAt cap.arena top.1).valueTarget with
    | none => cap
    | some ti =>
      if cap.matched.getD ti false then cap
      else { cap with matched := cap.matched.set ti true, ranges := cap.ranges.set ti (start, stop) }

/-- Record an array length at the current node (`record_length`). -/
def Capture.recordLength (cap : Capture) (count : Nat) : Capture :=
  let top := cap.stack.getLast?.getD (0, false)
  if top.2 = false then cap
  else
    match (nodeAt cap.arena top.1).lengthTarget with
    | none => cap
    | some ti =>
      if cap.matched.getD ti false then cap
      else { cap with matched := cap.matched.set ti true, lengths := cap.lengths.set ti count }

def Capture.valueRange (cap : Capture) (i : Nat) : Option (Nat × Nat) :=
  if cap.matched.getD i false then cap.ranges[i]? else none

def Capture.length (cap : Capture) (i : Nat) : Option Nat :=
  if cap.matched.getD i false then cap.lengths[i]? else none

end Castrum
