import QueryPad.Command.Report

namespace QueryPad

open Text

inductive ItemKind where
  | method | property | keyword | operator
  deriving DecidableEq

-- The numbers by which editors know the kinds.
def ItemKind.number : ItemKind → Nat
  | method => 2
  | property => 10
  | keyword => 14
  | operator => 24

inductive ItemEdit where
  | replace (range : Range) (text : String)
  | insertOrReplace (insert replace : Range) (text : String)
  deriving DecidableEq

-- Something to complete with.
structure CompletionItem where
  label : String
  kind : Option ItemKind := none
  detail : Option String := none
  documentation : Option String := none
  sortText : Option String := none
  filterText : Option String := none
  edit : Option ItemEdit := none
  deriving DecidableEq

namespace ItemEdit

-- The edit moved to other ranges.
def mapRanges (move : Range → Range) : ItemEdit → ItemEdit
  | replace range text => replace (move range) text
  | insertOrReplace insert range text => insertOrReplace (move insert) (move range) text

def toJson : ItemEdit → Json
  | replace range text => .object [("range", range.toJson), ("newText", .string text)]
  | insertOrReplace insert range text =>
    .object [("newText", .string text), ("insert", insert.toJson), ("replace", range.toJson)]

end ItemEdit

namespace CompletionItem

def mapRanges (move : Range → Range) (item : CompletionItem) : CompletionItem :=
  { item with edit := item.edit.map (·.mapRanges move) }

-- Absent parts are left out.
def toJson (item : CompletionItem) : Json :=
  .object <|
    [("label", .string item.label)] ++ part "kind" (item.kind.map fun kind => .nat kind.number) ++
    part "detail" (item.detail.map .string) ++
    part "documentation" (item.documentation.map .string) ++
    part "sortText" (item.sortText.map .string) ++
    part "filterText" (item.filterText.map .string) ++
    part "textEdit" (item.edit.map ItemEdit.toJson)
where
  part (key : String) (value : Option Json) : List (String × Json) :=
    (value.map fun value => (key, value)).toList

def listToJson (items : List CompletionItem) : Json := .array (items.map toJson)

end CompletionItem

end QueryPad
