import TestProgram.Document.Basic
import TestProgram.Sheet.PatternSets

/-!
# Sheets as documents

The shape of the entries of sheets in data documents.
-/

namespace TestProgram

open Document (record text number texts optional)

def TestInstance.document (e : SheetEntry TestInstance) : Document := record [
  ("base_name", text e.base),
  ("kind", text e.content.kind),
  ("attrs", record (e.content.attrs.map fun a => (a.1, text a.2))),
  ("version", optional number e.version)]

def PatternSet.document (e : SheetEntry PatternSet) : Document := record [
  ("base_name", text e.base),
  ("patterns", texts e.content.patterns),
  ("version", optional number e.version)]

/-- A sheet, given the shape of its entries. -/
def Sheet.document (entry : SheetEntry α → Document) (s : Sheet α) : Document := record [
  ("name", text s.name),
  ("entries", .list (s.entries.map entry))]

end TestProgram
