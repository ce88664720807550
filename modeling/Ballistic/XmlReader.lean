import Ballistic.Lua.Strings

/-!
# The XML reader of the table generator

`parse_xml_fast` of `tools/scripts/generate_decoder_tables.lua`. The nodes are tables, which Lua passes
by reference: a node that is open is on the stack and among the children of its parent at the same time.
A reference is the position of the table in the list of all tables made so far, and the subject string
is what is left of it from `position` on. An error that Lua raises is `none`.
-/

namespace Ballistic

open Lua

/-! ### Tables -/

abbrev Attributes := List (List Char × List Char)

/-- `node.attrs[k] = v`. -/
def Attributes.set (attrs : Attributes) (k v : List Char) : Attributes :=
  if attrs.any (·.1 = k) then attrs.map fun a => if a.1 = k then (k, v) else a
  else attrs ++ [(k, v)]

/-- A table with `tag`, `attrs` and `children`, or one with the tag `__text__` and `text`. -/
inductive Table where
  | element (tag : List Char) (attrs : Attributes) (children : List Nat)
  | text (text : List Char)
  deriving DecidableEq, Repr

/-- The locals of `parse_xml_fast` that last from turn to turn; the top of the stack comes first. -/
structure XmlReader where
  nodes : List Table
  stack : List Nat
  deriving DecidableEq, Repr

def XmlReader.start : XmlReader := ⟨[.element "root".toList [] []], [0]⟩

/-- `table.insert(current.children, node)` for a new table, with `current` the top of the stack. -/
def XmlReader.insert (reader : XmlReader) (node : Table) : Option XmlReader :=
  match reader.stack with
  | [] => none
  | current :: _ =>
      match reader.nodes[current]? with
      | some (.element tag attrs children) =>
          some { reader with
            nodes := reader.nodes.set current
              (.element tag attrs (children ++ [reader.nodes.length])) ++ [node] }
      | _ => none

def XmlReader.push (reader : XmlReader) (reference : Nat) : XmlReader :=
  { reader with stack := reference :: reader.stack }

/-- `table.remove(stack)`, which does nothing to an empty stack. -/
def XmlReader.pop (reader : XmlReader) : XmlReader := { reader with stack := reader.stack.tail }

/-! ### Tags -/

/-- `[%w_:-]`. -/
def isNameChar (c : Char) : Bool := c.isAlphanum || c == '_' || c == ':' || c == '-'

/-- `([%w_:-]+)%s*=%s*"([^"]*)"`. -/
def attributePattern : List (Item Char) :=
  [⟨isNameChar, .plus, true⟩, ⟨isSpace, .star, false⟩, ⟨(· == '='), .once, false⟩,
    ⟨isSpace, .star, false⟩, ⟨(· == '"'), .once, false⟩, ⟨(· != '"'), .star, true⟩,
    ⟨(· == '"'), .once, false⟩]

/-- The loop over the matches in `attrs_str`. -/
def readAttributes (attrsStr : List Char) : Attributes :=
  (gmatch attributePattern attrsStr).foldl
    (fun attrs captures =>
      match captures with
      | [k, v] => attrs.set k v
      | _ => attrs)
    []

/-- The part of the loop behind the computation of `tag_str`. -/
def XmlReader.readTag (reader : XmlReader) (tagStr : List Char) : Option XmlReader :=
  let isClosing := tagStr.head? == some '/'
  let isSelfClosing := !isClosing && tagStr.getLast? == some '/'
  let tagStr :=
    if isClosing then tagStr.tail else if isSelfClosing then tagStr.dropLast else tagStr
  let name := tagStr.takeWhile (!isSpace ·)
  let attrsStr := tagStr.dropWhile (!isSpace ·)
  if isClosing then some reader.pop
  else
    (reader.insert (.element name (readAttributes attrsStr) [])).map fun inserted =>
      if isSelfClosing then inserted else inserted.push reader.nodes.length

/-! ### The loop -/

/-- How a turn of the loop ends: with an error, by `break`, or with a new position. -/
inductive Turn where
  | raised
  | broken
  | moved (reader : XmlReader) (xml : List Char)

def Turn.of (xml : List Char) : Option XmlReader → Turn
  | none => .raised
  | some reader => .moved reader xml

/-- The branches of the loop, on what stands behind the `<`. -/
def XmlReader.turn (reader : XmlReader) (markup : List Char) : Turn :=
  if "!--".toList <+: markup then
    match find "-->".toList (markup.drop 3) with
    | none => .broken
    | some (_, xml) => .moved reader xml
  else if "![CDATA[".toList <+: markup then
    match find "]]>".toList (markup.drop 8) with
    | none => .broken
    | some (text, xml) => .of xml (reader.insert (.text text))
  else if "?".toList <+: markup then
    match find "?>".toList (markup.drop 1) with
    | none => .broken
    | some (_, xml) => .moved reader xml
  else
    match find ">".toList markup with
    | none => .broken
    | some (tagStr, xml) => .of xml (reader.readTag tagStr)

/-- The text between two tags becomes a node unless it is empty. -/
def XmlReader.insertText (reader : XmlReader) (text : List Char) : Option XmlReader :=
  if text = [] then some reader else reader.insert (.text text)

section Length

variable {reader reader' : XmlReader} {what before markup xml xml' : List Char}

theorem Turn.eq_of_of_eq_moved {result : Option XmlReader}
    (hturn : Turn.of xml result = .moved reader xml') : xml = xml' := by
  cases result with
  | none => cases hturn
  | some r => exact (Turn.moved.inj hturn).2

theorem length_of_find_drop {n : Nat} (hfind : find what (markup.drop n) = some (before, xml)) :
    xml.length ≤ markup.length := by
  have hlength := length_of_find hfind
  rw [List.length_drop] at hlength
  omega

/-- A turn does not move back. -/
theorem XmlReader.length_of_turn (hturn : reader.turn markup = .moved reader' xml) :
    xml.length ≤ markup.length := by
  simp only [XmlReader.turn] at hturn
  split_ifs at hturn
  case pos =>
    split at hturn
    case h_1 => cases hturn
    case h_2 hfind =>
      obtain ⟨-, rfl⟩ := Turn.moved.inj hturn
      exact length_of_find_drop hfind
  case pos =>
    split at hturn
    case h_1 => cases hturn
    case h_2 hfind =>
      obtain rfl := Turn.eq_of_of_eq_moved hturn
      exact length_of_find_drop hfind
  case pos =>
    split at hturn
    case h_1 => cases hturn
    case h_2 hfind =>
      obtain ⟨-, rfl⟩ := Turn.moved.inj hturn
      exact length_of_find_drop hfind
  case neg =>
    split at hturn
    case h_1 => cases hturn
    case h_2 hfind =>
      obtain rfl := Turn.eq_of_of_eq_moved hturn
      exact length_of_find_drop (n := 0) hfind

end Length

/-- The `while` loop; what is left of the string is there for the lines behind it. -/
def XmlReader.loop (reader : XmlReader) (xml : List Char) : Option (XmlReader × List Char) :=
  match _ : find "<".toList xml with
  | none => some (reader, xml)
  | some (text, markup) =>
      match reader.insertText text with
      | none => none
      | some reader =>
          match _ : reader.turn markup with
          | .raised => none
          | .broken => some (reader, xml)
          | .moved reader xml' => reader.loop xml'
termination_by xml.length
decreasing_by
  have hlt : markup.length + 1 ≤ xml.length := length_of_find ‹find "<".toList xml = _›
  have hle := XmlReader.length_of_turn ‹_ = Turn.moved _ _›
  omega

/-- The tables that are there when the function returns the first of them, the root. -/
def parseXmlFast (xml : List Char) : Option (List Table) :=
  (XmlReader.start.loop xml).bind fun (reader, xml) => (reader.insertText xml).map (·.nodes)

/-! ### Trees -/

inductive Node where
  | text (text : List Char)
  | element (tag : List Char) (attrs : Attributes) (children : List Node)

/-- The trees at a list of references. -/
inductive TreesAt (nodes : List Table) : List Nat → List Node → Prop where
  | nil : TreesAt nodes [] []
  | text {reference text references trees} (hnode : nodes[reference]? = some (.text text))
      (hnext : TreesAt nodes references trees) :
      TreesAt nodes (reference :: references) (.text text :: trees)
  | element {reference tag attrs children subtrees references trees}
      (hnode : nodes[reference]? = some (.element tag attrs children))
      (hchildren : TreesAt nodes children subtrees) (hnext : TreesAt nodes references trees) :
      TreesAt nodes (reference :: references) (.element tag attrs subtrees :: trees)

/-- There is one tree at a reference. -/
theorem TreesAt.unique {nodes : List Table} {references : List Nat} {trees trees' : List Node}
    (h : TreesAt nodes references trees) (h' : TreesAt nodes references trees') : trees = trees' := by
  induction h generalizing trees' with
  | nil =>
      cases h'
      rfl
  | text hnode _ ih =>
      cases h' with
      | text hnode' hnext' =>
          obtain rfl := Table.text.inj (Option.some.inj (hnode.symm.trans hnode'))
          rw [ih hnext']
      | element hnode' => cases hnode.symm.trans hnode'
  | element hnode _ _ ihchildren ih =>
      cases h' with
      | text hnode' => cases hnode.symm.trans hnode'
      | element hnode' hchildren' hnext' =>
          obtain ⟨rfl, rfl, rfl⟩ := Table.element.inj (Option.some.inj (hnode.symm.trans hnode'))
          rw [ihchildren hchildren', ih hnext']

end Ballistic
