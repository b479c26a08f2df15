/-
RamlSchema/Yaml/Node.lean

The nodes of a YAML document, as its tokens describe them.

A node is a scalar, a sequence, a mapping or an alias, and it may have a tag
and an anchor.  Anchors are numbered as they come: the number of an anchor is
that of the different names before it, so an anchor whose name was used before
does not raise the numbers of those behind it.  An alias has the number that
its name has at its place.

`NodeReader` reads tokens from a list.  Its functions call each other in the
way that nodes contain each other, and each call spends one unit of a budget
that is a multiple of the number of tokens.
-/
import RamlSchema.Members
import RamlSchema.Yaml.Token.Basic

namespace RamlSchema.Yaml

/-- What a node may have besides its content: the number of its anchor, and
the bytes of its tag. -/
structure Properties where
  anchor : Option Nat := none
  tag : Option (List UInt8) := none

/-- A node of a document. -/
inductive Node where
  | scalar (props : Properties) (plain : Bool) (text : List Char)
  | sequence (props : Properties) (items : List Node)
  | mapping (props : Properties) (entries : List (Node × Node))
  | alias (anchor : Nat)

namespace Node

/-! ### Reading tokens -/

/-- The state of reading nodes. -/
structure Reading where
  tokens : List Token
  /-- The numbers of the anchors. -/
  anchors : Members Nat := []
  /-- What the handles of tags stand for. -/
  handles : List (List Char × List UInt8) := []

/-- A reader of nodes. -/
abbrev NodeReader := StateT Reading Option

/-- The token that stands next. -/
def peek : NodeReader (Option Token) := do
  return (← get).tokens.head?

/-- Moves over a token. -/
def advance : NodeReader Unit :=
  modify fun r => { r with tokens := r.tokens.drop 1 }

/-- Moves over a token that has to be `t`. -/
def expect (t : Token) : NodeReader Unit := do
  if (← peek) = some t then advance else failure

/-- Numbers an anchor. -/
def define (name : String) : NodeReader Nat := do
  let r ← get
  let n := r.anchors.length
  set { r with anchors := r.anchors.insert name n }
  return n

/-- The bytes of a tag, with what its handle stands for. -/
def expand (t : WrittenTag) : NodeReader (List UInt8) := do
  if t.handle.isEmpty then return t.suffix
  else
    match (← get).handles.lookup t.handle with
    | some start => return start ++ t.suffix
    | none => failure

/-- The anchor and the tag that stand next, in either order.  Answers the name
of the anchor and the written tag. -/
def writtenProperties : NodeReader (Option String × Option WrittenTag) := do
  match ← peek with
  | some (.anchor name) =>
    advance
    match ← peek with
    | some (.tag t) => advance; return (some name, some t)
    | _ => return (some name, none)
  | some (.tag t) =>
    advance
    match ← peek with
    | some (.anchor name) => advance; return (some name, some t)
    | _ => return (none, some t)
  | _ => return (none, none)

/-- The node for nothing at all. -/
def absent : Node := .scalar {} true []

/-- Whether a node is due at a token: not if one of `ends` stands there. -/
def isDue (ends : List Token) : NodeReader Bool := do
  match ← peek with
  | none => return true
  | some t => return !ends.contains t

mutual

/-- A node.  Collections that are set apart by indentation stand only where
`block` holds, and a sequence at the column of the mapping around it only where
`indentless` does. -/
def readNode (block indentless : Bool) : Nat → NodeReader Node
  | 0 => failure
  | budget + 1 => do
    match ← peek with
    | some (.alias name) =>
      advance
      match (← get).anchors.get? name with
      | some n => return .alias n
      | none => failure
    | _ =>
      let (name, written) ← writtenProperties
      let tag ← written.mapM expand
      let anchor ← name.mapM define
      let props : Properties := { anchor, tag }
      match ← peek with
      | some (.scalar plain text) => advance; return .scalar props plain text
      | some .flowSequenceStart => advance; return .sequence props (← readFlowItems true budget)
      | some .flowMappingStart => advance; return .mapping props (← readFlowEntries true budget)
      | some .blockEntry =>
        if indentless then return .sequence props (← readIndentlessItems budget)
        else readEmpty props
      | some .blockSequenceStart =>
        if block then do advance; return .sequence props (← readBlockItems budget)
        else readEmpty props
      | some .blockMappingStart =>
        if block then do advance; return .mapping props (← readBlockEntries budget)
        else readEmpty props
      | _ => readEmpty props

/-- A node without content, which has to have properties. -/
def readEmpty (props : Properties) : NodeReader Node :=
  if props.anchor.isSome || props.tag.isSome then return .scalar props true [] else failure

/-- A node, or nothing where one of `ends` stands. -/
def readOptional (ends : List Token) (block indentless : Bool) : Nat → NodeReader Node
  | 0 => failure
  | budget + 1 => do
    if ← isDue ends then readNode block indentless budget else return absent

/-- The items of a sequence that is set apart by indentation. -/
def readBlockItems : Nat → NodeReader (List Node)
  | 0 => failure
  | budget + 1 => do
    match ← peek with
    | some .blockEntry =>
      advance
      let x ← readOptional [.blockEntry, .blockEnd] true false budget
      return x :: (← readBlockItems budget)
    | _ => expect .blockEnd; return []

/-- The items of a sequence at the column of the mapping around it. -/
def readIndentlessItems : Nat → NodeReader (List Node)
  | 0 => failure
  | budget + 1 => do
    match ← peek with
    | some .blockEntry =>
      advance
      let x ← readOptional [.blockEntry, .key, .value, .blockEnd] true false budget
      return x :: (← readIndentlessItems budget)
    | _ => return []

/-- The entries of a mapping that is set apart by indentation. -/
def readBlockEntries : Nat → NodeReader (List (Node × Node))
  | 0 => failure
  | budget + 1 => do
    match ← peek with
    | some .key =>
      advance
      let k ← readOptional [.key, .value, .blockEnd] true true budget
      let v ← readBlockValue budget
      return (k, v) :: (← readBlockEntries budget)
    | _ => expect .blockEnd; return []

/-- The value of an entry, if its colon stands there. -/
def readBlockValue : Nat → NodeReader Node
  | 0 => failure
  | budget + 1 => do
    match ← peek with
    | some .value =>
      advance
      readOptional [.key, .value, .blockEnd] true true budget
    | _ => return absent

/-- The items of a sequence in brackets, with a comma before all but the
first.  An entry with a key is a mapping of its own. -/
def readFlowItems (first : Bool) : Nat → NodeReader (List Node)
  | 0 => failure
  | budget + 1 => do
    if (← peek) = some .flowSequenceEnd then advance; return []
    else
      if !first then expect .flowEntry
      match ← peek with
      | some .flowSequenceEnd => advance; return []
      | some .key =>
        advance
        let k ← readFlowPairKey budget
        let v ← readFlowValue [.flowEntry, .flowSequenceEnd] budget
        return .mapping {} [(k, v)] :: (← readFlowItems false budget)
      | _ =>
        let x ← readNode false false budget
        return x :: (← readFlowItems false budget)

/-- The key of a mapping that is an item.  Where it is left out, the token in
its place is passed over. -/
def readFlowPairKey : Nat → NodeReader Node
  | 0 => failure
  | budget + 1 => do
    if ← isDue [.value, .flowEntry, .flowSequenceEnd] then readNode false false budget
    else advance; return absent

/-- The value of an entry in brackets, if its colon stands there. -/
def readFlowValue (ends : List Token) : Nat → NodeReader Node
  | 0 => failure
  | budget + 1 => do
    match ← peek with
    | some .value =>
      advance
      readOptional ends false false budget
    | _ => return absent

/-- The entries of a mapping in brackets, with a comma before all but the
first.  An entry may be a key alone. -/
def readFlowEntries (first : Bool) : Nat → NodeReader (List (Node × Node))
  | 0 => failure
  | budget + 1 => do
    if (← peek) = some .flowMappingEnd then advance; return []
    else
      if !first then expect .flowEntry
      match ← peek with
      | some .flowMappingEnd => advance; return []
      | some .key =>
        advance
        let k ← readOptional [.value, .flowEntry, .flowMappingEnd] false false budget
        let v ← readFlowValue [.flowEntry, .flowMappingEnd] budget
        return (k, v) :: (← readFlowEntries false budget)
      | _ =>
        let k ← readNode false false budget
        return (k, absent) :: (← readFlowEntries false budget)

end

/-! ### Documents -/

/-- The handles that stand for something without a directive. -/
def defaultHandles : List (List Char × List UInt8) :=
  [(['!'], bytesOf ['!']), (['!', '!'], repositoryTag)]

/-- The directives before a document.  There is at most one version, and one
directive for each handle. -/
def readDirectives (versioned : Bool) (handles : List (List Char × List UInt8)) :
    List Token → Option (List (List Char × List UInt8) × List Token)
  | .version major minor :: ts =>
    if versioned || major ≠ 1 || (minor ≠ 1 && minor ≠ 2) then none
    else readDirectives true handles ts
  | .handle word start :: ts =>
    if (handles.lookup word).isSome then none
    else readDirectives versioned ((word, start) :: handles) ts
  | ts => some (handles, ts)

/-- The content of a document behind its marker, which may be missing. -/
def readContent (budget : Nat) : NodeReader Node := do
  match ← peek with
  | none => return absent
  | some (.version _ _) => return absent
  | some (.handle _ _) => return absent
  | some .documentStart => return absent
  | some .documentEnd => return absent
  | some _ => readNode true false budget

/-- The document that tokens describe.  A text without any describes nothing,
and behind the document stand only markers of its end. -/
def ofTokens? (tokens : List Token) : Option Node := do
  let budget := 3 * tokens.length + 3
  let (handles, rest) ← readDirectives false [] tokens
  let reading : Reading := { tokens := rest, handles := handles ++ defaultHandles }
  let (n, r) ←
    match tokens, rest with
    | [], _ => some (absent, reading)
    | _, .documentStart :: _ => (do advance; readContent budget).run reading
    | .version _ _ :: _, _ => none
    | .handle _ _ :: _, _ => none
    | _, _ => (readNode true false budget).run reading
  if (r.tokens.dropWhile (· = .documentEnd)).isEmpty then some n else none

/-! ### Size and anchors -/

mutual

/-- The number of starts, ends, scalars and aliases in a node. -/
def eventCount : Node → Nat
  | .scalar _ _ _ => 1
  | .alias _ => 1
  | .sequence _ xs => 2 + itemsEventCount xs
  | .mapping _ es => 2 + entriesEventCount es

/-- The same for items. -/
def itemsEventCount : List Node → Nat
  | [] => 0
  | x :: xs => x.eventCount + itemsEventCount xs

/-- The same for entries. -/
def entriesEventCount : List (Node × Node) → Nat
  | [] => 0
  | (k, v) :: es => k.eventCount + v.eventCount + entriesEventCount es

end

/-- The anchor of a node with the node, in a list. -/
def anchored (n : Node) (props : Properties) : List (Nat × Node) :=
  match props.anchor with
  | some a => [(a, n)]
  | none => []

mutual

/-- The anchored nodes within a node, in the order in which they begin. -/
def anchors : Node → List (Nat × Node)
  | .scalar props plain text => anchored (.scalar props plain text) props
  | .alias _ => []
  | .sequence props xs => anchored (.sequence props xs) props ++ itemsAnchors xs
  | .mapping props es => anchored (.mapping props es) props ++ entriesAnchors es

/-- The anchored nodes within items. -/
def itemsAnchors : List Node → List (Nat × Node)
  | [] => []
  | x :: xs => x.anchors ++ itemsAnchors xs

/-- The anchored nodes within entries. -/
def entriesAnchors : List (Node × Node) → List (Nat × Node)
  | [] => []
  | (k, v) :: es => k.anchors ++ v.anchors ++ entriesAnchors es

end

end Node

end RamlSchema.Yaml
