import Disassembly.Listing.Page

namespace Disassembly

namespace Page

/-- The bytes that a row stands for. -/
def rowBytes (page : Page) : Row → List UInt8
  | .code i => page.bytes i
  | .data _ b => [b]
  | .label _ _ => []
  | .unmapped _ => []

/-- The bytes as two digits and a blank each, with blanks up to the eleven bytes of the longest
instruction and two more, if the page shows bytes. -/
def column (page : Page) (bytes : List UInt8) : String :=
  if page.showBytes then
    String.join (bytes.map fun b => hexText 2 b.toNat ++ " ") ++
      String.ofList (List.replicate ((11 - bytes.length) * 3 + 2) ' ')
  else ""

/-- What stands in the last column of a row. -/
def shown (page : Page) : Row → String
  | .code i =>
    let line := page.processor.line page.names i
    if page.color then line.ansi else line.text
  | .data _ b => page.processor.config.style.data b
  | .label _ name => "<" ++ name ++ ">:"
  | .unmapped _ => page.processor.config.style.remark "unmapped"

/-- The line of the instruction or byte at `a`, with its line end. -/
def lineText (page : Page) (a : Address) (r : Row) : String :=
  addressText a ++ ": " ++ page.column (page.rowBytes r) ++ page.shown r ++ "\n"

theorem lines_eq_join (texts : List String) :
    lines texts = String.join (texts.map fun text => text ++ "\n") := by
  rw [String.join_eq_foldl, List.foldl_map, lines]
  simp only [String.append_assoc]

theorem lines_append (texts texts' : List String) :
    lines (texts ++ texts') = lines texts ++ lines texts' := by
  simp only [lines_eq_join, List.map_append, String.join_append]

theorem lines_flatMap {α : Type} (f : α → List String) (l : List α) :
    lines (l.flatMap f) = String.join (l.map fun a => lines (f a)) := by
  induction l with
  | nil => rfl
  | cons a l ih => rw [List.flatMap_cons, lines_append, ih, List.map_cons, String.join_cons]

variable (page : Page)

theorem ite_byteColumn (bytes : List UInt8) :
    (if page.showBytes then byteColumn bytes else "") = page.column bytes := by
  have hblanks : String.ofList (List.replicate ((11 - bytes.length) * 3 + 2) ' ') =
      String.ofList (List.replicate ((11 - bytes.length) * 3) ' ') ++ "  " := by
    rw [← List.replicate_append_replicate, String.ofList_append]
    rfl
  rw [column, hblanks, ← String.append_assoc]
  rfl

theorem instruction_append_newline (i : Instruction) :
    page.instruction i ++ "\n" = page.lineText i.address (.code i) := by
  simp only [instruction, ite_byteColumn]
  rfl

theorem data_append_newline (a : Address) (b : UInt8) :
    page.data a b ++ "\n" = page.lineText a (.data a b) := by
  simp only [data, ite_byteColumn]
  rfl

theorem lines_label (a : Address) (name : String) :
    lines [page.indented (.label a name)] = addressText a ++ " <" ++ name ++ ">:\n" := by
  simp [lines_eq_join, indented, row, String.append_assoc]

theorem lines_indented_code (i : Instruction) :
    lines [page.indented (.code i)] = "  " ++ page.lineText i.address (.code i) := by
  rw [← instruction_append_newline]
  simp [lines_eq_join, indented, row, String.append_assoc]

theorem lines_indented_data (a : Address) (b : UInt8) :
    lines [page.indented (.data a b)] = "  " ++ page.lineText a (.data a b) := by
  rw [← data_append_newline]
  simp [lines_eq_join, indented, row, String.append_assoc]

end Page

end Disassembly
