import AnnotatedHeader.Document
import AnnotatedHeader.Json

/-! Documents as JSON.

A declaration's item has no object of its own: its kind and its fields stand among
those of the declaration. Metadata are objects in source order. -/
namespace AnnotatedHeader

open Json (ofOption)

mutual

def MetaValue.toJson : MetaValue → Json
  | .flag => .bool true
  | .text text => .text text
  | .group entries => .object (Metadata.entriesToJson entries)

def Metadata.entriesToJson : List (String × MetaValue) → List (String × Json)
  | [] => []
  | (key, value) :: rest => (key, value.toJson) :: Metadata.entriesToJson rest

end

def Metadata.toJson (m : Metadata) : Json := .object (Metadata.entriesToJson m)

def Reflection.toJson (r : Reflection) : Json :=
  .object [("macro", .text r.macroName), ("metadata", r.metadata.toJson), ("line", .number r.line)]

def Example.toJson (x : Example) : Json :=
  .object [("snippet", .text x.snippet), ("line", .number x.line), ("code", ofOption .text x.code)]

def Segment.toJson : Segment → Json
  | .markdown text => .object [("type", .text "markdown"), ("value", .text text)]
  | .shown x => .object [("type", .text "example"), ("value", x.toJson)]

def CrossReference.toJson (r : CrossReference) : Json :=
  .object
    [ ("kind", .text r.kind.word), ("path", .text r.path), ("line", .number r.line),
      ("target", ofOption .text r.target) ]

def DocBlock.toJson (b : DocBlock) : Json :=
  .object
    [ ("line", .number b.line), ("segments", .list (b.segments.map Segment.toJson)),
      ("references", .list (b.references.map CrossReference.toJson)) ]

def Param.toJson (p : Param) : Json :=
  .object
    [ ("name", ofOption .text p.name), ("type", .text p.type),
      ("default", ofOption .text p.default), ("doc", ofOption DocBlock.toJson p.doc) ]

def Item.entries : Item → List (String × Json)
  | .enumeration shape =>
    [ ("scoped", .bool shape.isScoped), ("underlying", ofOption .text shape.underlying),
      ("has_body", .bool shape.hasBody) ]
  | .record _ shape =>
    [ ("api", ofOption .text shape.api), ("bases", .list (shape.bases.map .text)),
      ("has_body", .bool shape.hasBody) ]
  | .function shape =>
    [ ("prefix", ofOption .text shape.lead), ("params", .list (shape.params.map Param.toJson)),
      ("qualifiers", ofOption .text shape.qualifiers), ("special", .bool shape.special),
      ("has_body", .bool shape.hasBody) ]
  | .property shape =>
    [ ("type", .text shape.type), ("array", ofOption .text shape.array),
      ("default", ofOption .text shape.default), ("is_static", .bool shape.isStatic) ]
  | .variant value => [("value", ofOption .text value)]

/-- The entries of a declaration, its members apart. -/
def Declared.entries (d : Declared) : List (String × Json) :=
  [ ("name", .text d.name), ("path", .text d.path), ("line", .number d.line),
    ("visibility", .text d.visibility.word), ("template", ofOption .text d.template),
    ("annotation", ofOption Reflection.toJson d.reflection), ("signature", .text d.signature),
    ("doc", ofOption DocBlock.toJson d.doc), ("kind", .text d.item.kind.word) ] ++ d.item.entries

mutual

/-- That a declaration is synthetic is said only when it is. -/
def Declaration.toJson : Declaration → Json
  | ⟨own, members⟩ =>
    .object (own.entries ++ ("members", .list (Declaration.listToJson members)) ::
      (if own.synthetic then [("synthetic", .bool true)] else []))

def Declaration.listToJson : List Declaration → List Json
  | [] => []
  | d :: ds => d.toJson :: Declaration.listToJson ds

end

def Document.toJson (d : Document) : Json :=
  .object
    [ ("file", .text d.file), ("declarations", .list (Declaration.listToJson d.declarations)),
      ("snippets", .object (d.snippets.map fun (name, text) => (name, .text text))) ]

end AnnotatedHeader
