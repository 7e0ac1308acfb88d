import Montage.Fields
import Montage.Arena.Tree

/-!
Nodes of a document: elements with classes and attributes, texts, comments, and fragments, whose
children take their place. A document is written with its text and attribute values escaped.
-/

namespace Montage.Html

inductive Item where
  | element (tag : String) (classes : List String) (attributes : Fields String)
  | text (s : String)
  | comment (s : String)
  | fragment
deriving DecidableEq, Repr

namespace Item

def ofTag (tag : String) : Item :=
  .element tag [] []

def isFragment : Item → Bool
  | .fragment => true
  | _ => false

def isElement : Item → Bool
  | .element .. => true
  | _ => false

/-- Adds a class unless it is empty or there already. -/
def addClass (c : String) : Item → Item
  | .element tag classes attributes =>
    if c.isEmpty || classes.contains c then .element tag classes attributes
    else .element tag (classes ++ [c]) attributes
  | item => item

def setAttribute (name value : String) : Item → Item
  | .element tag classes attributes => .element tag classes (Fields.insert attributes name value)
  | item => item

def removeAttribute (name : String) : Item → Item
  | .element tag classes attributes => .element tag classes (Fields.erase attributes name)
  | item => item

/-- Rewrites a text or a comment. -/
def setText (s : String) : Item → Item
  | .text _ => .text s
  | .comment _ => .comment s
  | item => item

end Item

/-- Moves a node to the end of another. A fragment moves its children in its place. -/
def append (t : Tree Item) (parent child : NodeId) : Tree Item :=
  match t.get? child with
  | none => t
  | some .fragment => (t.children child).foldl (fun t id => t.append parent id) t
  | some _ => t.append parent child

def escapeChar (c : Char) : List Char :=
  if c = '&' then "&amp;".toList
  else if c = '<' then "&lt;".toList
  else if c = '>' then "&gt;".toList
  else if c = '"' then "&quot;".toList
  else [c]

def escape (s : List Char) : List Char :=
  s.flatMap escapeChar

def attributeText (name : String) (value : List Char) : List Char :=
  ' ' :: (name.toList ++ '=' :: '"' :: (escape value ++ ['"']))

def classText (classes : List String) : List Char :=
  if classes.isEmpty then []
  else attributeText "class" (String.intercalate " " classes).toList

def openTag (tag : String) (classes : List String) (attributes : Fields String) : List Char :=
  '<' :: (tag.toList ++ classText classes ++
    attributes.flatMap (fun a => attributeText a.1 a.2.toList) ++ ['>'])

def closeTag (tag : String) : List Char :=
  '<' :: '/' :: (tag.toList ++ ['>'])

mutual

/-- The written form of a document tree. -/
def write : Rose Item → List Char
  | .node (.text s) _ => escape s.toList
  | .node (.comment s) _ => "<!--".toList ++ s.toList ++ "-->".toList
  | .node .fragment children => writeAll children
  | .node (.element tag classes attributes) children =>
    openTag tag classes attributes ++ writeAll children ++ closeTag tag

def writeAll : List (Rose Item) → List Char
  | [] => []
  | r :: rs => write r ++ writeAll rs

end

end Montage.Html
