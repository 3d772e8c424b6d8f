import Readahead.Mounted

/-! What can be asked of a mounted scanner, as data, and what is found. To look is to be told why an
item cannot be had, to peek only that it cannot.

`lineText` is line, and `place` is position, with line_number, column and consumed in it. -/
namespace Readahead

inductive Query where
  | peek
  | peekAt (n : Nat)
  | look (n : Nat)
  | next
  | skip (n : Nat)
  | atEnd
  | take (n : Nat)
  | meets (text : Utf8.Text)
  | meetsBytes (bytes : Bytes)
  | accept (text : Utf8.Text)
  | acceptBytes (bytes : Bytes)
  | lineText
  | place
  deriving DecidableEq, Repr

inductive Finding where
  | item (item : Option Item)
  | looked (item : Except Fault Item)
  | skipped (verdict : Except Fault Unit)
  | truth (value : Bool)
  | items (items : List Item)
  | text (text : Utf8.Text)
  | place (position : Position)

def Mounted.serve (m : Mounted) : Query → Run Mounted Finding
  | .peek => (m.look 1).map fun seen => .item seen.toOption
  | .peekAt n => (m.look n).map fun seen => .item seen.toOption
  | .look n => (m.look n).map .looked
  | .next => m.next.map .item
  | .skip n => (m.skip n).map .skipped
  | .atEnd => m.atEnd.map .truth
  | .take n => (m.take n).map .items
  | .meets text => (m.meets text).map .truth
  | .meetsBytes bytes => (m.meetsBytes bytes).map .truth
  | .accept text => (m.accept text).map .truth
  | .acceptBytes bytes => (m.acceptBytes bytes).map .truth
  | .lineText => .still (.text (Utf8.lossy m.scanner.line)) m
  | .place => .still (.place m.scanner.place) m

end Readahead
