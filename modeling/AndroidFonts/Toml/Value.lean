/-
# `AndroidFonts.Toml.Value` — TOML values and the tables under construction

A finished value is a tree (`Value`).  While a document is read, its tables are still open
(`Node`), and how a table came to be decides who may add to it:

* a table with a header of its own takes keys from below that header only;
* a table that only stands in front of a longer header may get its own header later;
* a table written through dotted keys takes further dotted keys of the same block;
* an array of tables is added to by its headers, and keys go to its last table.
-/
namespace AndroidFonts.Toml

/-- A finished value.  Numbers with a fraction, and dates, are only known to be such. -/
inductive Value where
  | string (s : String)
  | integer (n : Int)
  | float
  | boolean (b : Bool)
  | dateTime
  | array (items : List Value)
  | table (entries : List (String × Value))
deriving Repr

/-- How a table came to be. -/
inductive TableForm where
  | header
  /-- Only as a step on the way of a longer header. -/
  | implied
  /-- Only as a step of a dotted key. -/
  | dotted
deriving Repr, DecidableEq

/-- What a key of an open table stands for. -/
inductive Node where
  | value (v : Value)
  | table (form : TableForm) (entries : List (String × Node))
  | tables (items : List (List (String × Node)))
deriving Repr

abbrev Entries := List (String × Node)

mutual

/-- The value of a node once nothing is added any more. -/
def Node.toValue : Node → Value
  | .value v => v
  | .table _ entries => .table (entriesToValues entries)
  | .tables items => .array (itemsToValues items)

def entriesToValues : List (String × Node) → List (String × Value)
  | [] => []
  | (k, n) :: es => (k, n.toValue) :: entriesToValues es

def itemsToValues : List (List (String × Node)) → List Value
  | [] => []
  | es :: items => .table (entriesToValues es) :: itemsToValues items

end

namespace Entries

/-- Binds a key, in place if it is bound already. -/
def put (k : String) (n : Node) : Entries → Entries
  | [] => [(k, n)]
  | (k', n') :: es => if k' = k then (k, n) :: es else (k', n') :: put k n es

/-- Changes the table at a path of headers; tables missing on the way are implied. -/
def descend (f : Entries → Option Entries) : List String → Entries → Option Entries
  | [], es => f es
  | k :: ks, es =>
    match es.lookup k with
    | none => (descend f ks []).map fun t => put k (.table .implied t) es
    | some (.table form t) => (descend f ks t).map fun t => put k (.table form t) es
    | some (.tables items) =>
      match items.getLast? with
      | none => none
      | some t => (descend f ks t).map fun t => put k (.tables (items.dropLast ++ [t])) es
    | some (.value _) => none

/-- Gives a key of this table a header of its own. -/
def openTable (k : String) (es : Entries) : Option Entries :=
  match es.lookup k with
  | none => some (put k (.table .header []) es)
  | some (.table .implied t) => some (put k (.table .header t) es)
  | some _ => none

/-- Adds a table to the array of tables at a key. -/
def openItem (k : String) (es : Entries) : Option Entries :=
  match es.lookup k with
  | none => some (put k (.tables [[]]) es)
  | some (.tables items) => some (put k (.tables (items ++ [[]])) es)
  | some _ => none

/-- Binds a dotted key.  The table that gets the last part must itself have come from dotted keys;
those on the way to it only must have no header. -/
def assign (v : Value) : List String → Entries → Option Entries
  | [], _ => none
  | [k], es => if (es.lookup k).isSome then none else some (es ++ [(k, .value v)])
  | k :: ks, es =>
    match es.lookup k with
    | none => (assign v ks []).map fun t => put k (.table .dotted t) es
    | some (.table form t) =>
      if form = .header || (ks.length = 1 && form ≠ .dotted) then none
      else (assign v ks t).map fun t => put k (.table form t) es
    | some (.tables items) =>
      match items.getLast? with
      | none => none
      | some t =>
        if ks.length = 1 then none
        else (assign v ks t).map fun t => put k (.tables (items.dropLast ++ [t])) es
    | some (.value _) => none

end Entries

end AndroidFonts.Toml
