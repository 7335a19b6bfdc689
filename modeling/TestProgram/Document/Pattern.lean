import TestProgram.Config
import TestProgram.Document.Basic
import TestProgram.Pattern.Item

/-!
# Patterns as documents

The shape of settings and patterns in data documents.
-/

namespace TestProgram

open Document (record text number bool optional texts)

def PinState.document (s : PinState) : Document := text s.name

def Duration.document (d : Duration) : Document := number d.picoseconds

def Rounding.document : Rounding → Document
  | .ceil => text "Ceil"
  | .truncate => text "Truncate"

def VectorRecord.document (r : VectorRecord) : Document := record [
  ("pins", .list (r.states.map PinState.document)),
  ("repeat", number r.count),
  ("timeset", text r.timeset),
  ("call", optional text r.call),
  ("store", bool r.store),
  ("label", optional text r.label),
  ("group_size", number r.group),
  ("start_cycle", number r.start)]

def Item.document : Item → Document
  | .vector r => record [("Vector", r.document)]
  | .comment t => record [("Comment", text t)]
  | .loopStart label count =>
    record [("LoopStart", record [("label", text label), ("count", number count)])]
  | .loopEnd label => record [("LoopEnd", record [("label", text label)])]

def Wave.document (w : Wave) : Document := record [
  ("pin", number w.pin),
  ("drive", optional text w.drive),
  ("compare", optional text w.compare)]

def Timeset.document (t : Timeset) : Document := record [
  ("name", text t.name),
  ("period", optional Duration.document t.period),
  ("waves", .list (t.waves.map Wave.document))]

/-- The fields of a pattern. Its warnings are reported and not written. -/
def Pattern.fields (p : Pattern) : List (String × Document) := [
  ("name", text p.name),
  ("pins", texts p.pins),
  ("items", .list (p.items.map Item.document)),
  ("timesets", .list (p.timesets.map Timeset.document)),
  ("imported_subroutines", texts p.imported),
  ("defined_subroutines", texts p.defined),
  ("cycles", number p.cycles),
  ("executed_cycles", number p.executed)]

def Pattern.document (p : Pattern) : Document := record p.fields

def Config.document (c : Config) : Document := record [
  ("platform", text c.platform.title),
  ("max_repeat", optional number c.maxRepeat),
  ("wait_rounding", c.rounding.document),
  ("group_size", number c.group)]

end TestProgram
