import Mathlib.Algebra.Order.Ring.Rat
import BlitzRouter.VidurRf

namespace BlitzRouter.Vidur
open TextCells

section Files
variable {τ ε : Type} [Zero τ] {parseF32 : List Char → Option τ} {openFile : String → Except ε (Lines ε)}
variable {lines : Lines ε} {grid loaded : Grid τ} {config : SimulatorConfig τ} {op : Op} {p q : VidurRfPredictor τ}

-- The rows of the lines that could be read.
def rows (parseF32 : List Char → Option τ) (lines : Lines ε) : List ((Nat × Nat) × τ) :=
  lines.filterMap fun line => line.toOption.bind (csvRow parseF32)

theorem rows_cons_ok (line : List Char) : rows parseF32 ((.ok line : Except ε (List Char))::lines) =
    (csvRow parseF32 line).toList++rows parseF32 lines := by
  cases found : csvRow parseF32 line <;> simp [rows,Except.toOption,found]

-- Of the rows with one key the last one stays.
theorem loadLines_lookup (done : loadLines parseF32 lines grid = .ok loaded) (key : Nat × Nat) :
    loaded.lookup key = (((rows parseF32 lines).reverse.find? fun row => row.1 = key).map Prod.snd).or (grid.lookup key) := by
  induction lines generalizing grid with
  | nil =>
    cases done
    simp [rows]
  | cons line rest ih =>
    cases line with
    | error e => cases done
    | ok line =>
      simp only [loadLines] at done
      rw [rows_cons_ok,List.reverse_append,List.find?_append]
      cases found : csvRow parseF32 line with
      | none =>
        rw [found] at done
        simp [ih done]
      | some row =>
        obtain ⟨held,v⟩ := row
        rw [found] at done
        rw [ih done,Option.map_or,Option.or_assoc]
        congr 1
        by_cases same : held = key
        · subst same
          simp [AList.lookup_insert]
        · simp [same,AList.lookup_insert_ne (Ne.symm same)]

theorem loadLines_ok (parseF32 : List Char → Option τ) (readable : ∀ line ∈ lines, ∃ s, line = .ok s) (grid : Grid τ) :
    ∃ loaded, loadLines parseF32 lines grid = .ok loaded := by
  induction lines generalizing grid with
  | nil => exact ⟨grid,rfl⟩
  | cons line rest ih =>
    obtain ⟨s,rfl⟩ := readable line List.mem_cons_self
    have more := ih fun line member => readable line (List.mem_cons_of_mem _ member)
    simp only [loadLines]
    split
    · exact more grid
    · exact more _

theorem loadCsv_lines (done : loadCsv parseF32 openFile config op = .ok loaded) :
    ∃ lines, openFile (config.fileName op) = .ok lines ∧ loadLines parseF32 (lines.drop 1) ∅ = .ok loaded := by
  unfold loadCsv at done
  cases opened : openFile (config.fileName op) with
  | error e =>
    rw [opened] at done
    cases done
  | ok lines =>
    rw [opened] at done
    exact ⟨lines,rfl,done⟩

-- A row as it is printed: the key and the value, or both keys, further columns
-- and the value.
inductive Row (τ : Type) where
  | pair (r1 : Nat) (v : τ)
  | wide (r1 r2 : Nat) (more : List (List Char)) (v : τ)

namespace Row

def key : Row τ → Nat × Nat
  | .pair r1 _ => (r1,0)
  | .wide r1 r2 _ _ => (r1,r2)

def value : Row τ → τ
  | .pair _ v => v
  | .wide _ _ _ v => v

def middle : Row τ → List (List Char)
  | .pair _ _ => []
  | .wide _ r2 more _ => Nat.toDigits 10 r2::more

def print (showF32 : τ → List Char) (row : Row τ) : List Char :=
  [','].intercalate (Nat.toDigits 10 row.key.1::row.middle++[showF32 row.value])

structure Printable (parseF32 : List Char → Option τ) (showF32 : τ → List Char) (row : Row τ) : Prop where
  r1 : row.key.1 < 2^64
  r2 : row.key.2 < 2^64
  more : ∀ cell ∈ row.middle, Plain cell
  last : Plain (showF32 row.value)
  reads : parseF32 (trim (showF32 row.value)) = some row.value

end Row

theorem parseUsize_digits {n : Nat} (fits : n < 2^64) : parseUsize (Nat.toDigits 10 n) = some n := by
  rw [parseUsize,digits_solid.trim,unsigned_digits fits]

omit [Zero τ] in
theorem Row.Printable.plain {showF32 : τ → List Char} {row : Row τ} (printable : row.Printable parseF32 showF32) :
    ∀ cell ∈ Nat.toDigits 10 row.key.1::row.middle++[showF32 row.value], Plain cell := by
  intro cell member
  simp only [List.cons_append,List.mem_cons,List.mem_append,List.not_mem_nil,or_false] at member
  rcases member with rfl | member | rfl
  · exact plain_digits
  · exact printable.more cell member
  · exact printable.last

-- A printed row is one line.
omit [Zero τ] in
theorem Row.Printable.single {showF32 : τ → List Char} {row : Row τ} (printable : row.Printable parseF32 showF32) :
    '\n' ∉ row.print showF32 ∧ '\r' ∉ row.print showF32 := by
  refine ⟨fun feed => ?_,fun carriage => ?_⟩
  · rcases mem_intercalate feed with comma | ⟨cell,inside,here⟩
    · exact absurd comma (by decide)
    · exact (printable.plain cell inside).feed here
  · rcases mem_intercalate carriage with comma | ⟨cell,inside,here⟩
    · exact absurd comma (by decide)
    · exact (printable.plain cell inside).carriage here

theorem csvRow_print {showF32 : τ → List Char} {row : Row τ} (printable : row.Printable parseF32 showF32) :
    csvRow parseF32 (row.print showF32) = some (row.key,row.value) := by
  have split := List.splitOn_intercalate ',' (fun cell member => (printable.plain cell member).comma) (by simp)
  simp only [csvRow,Row.print,split]
  cases row with
  | pair r1 v =>
    have first : parseUsize (Nat.toDigits 10 r1) = some r1 := parseUsize_digits printable.r1
    have reads : parseF32 (trim (showF32 v)) = some v := printable.reads
    simp [Row.middle,Row.key,Row.value,first,reads]
  | wide r1 r2 more v =>
    have first : parseUsize (Nat.toDigits 10 r1) = some r1 := parseUsize_digits printable.r1
    have second : parseUsize (Nat.toDigits 10 r2) = some r2 := parseUsize_digits printable.r2
    have reads : parseF32 (trim (showF32 v)) = some v := printable.reads
    have last : (Nat.toDigits 10 r2::(more++[showF32 v])).getLast? = some (showF32 v) := by
      rw [← List.cons_append,List.getLast?_concat]
    simp [Row.middle,Row.key,Row.value,first,second,reads,List.getLastD_eq_getLast?,last]

-- The text of a table: each row on a line of its own.
def printTable (showF32 : τ → List Char) (table : List (Row τ)) : List Char := table.flatMap fun row => row.print showF32++['\n']

omit [Zero τ] in
theorem readLines_printTable {showF32 : τ → List Char} {table : List (Row τ)} (printable : ∀ row ∈ table, row.Printable parseF32 showF32) :
    readLines (printTable showF32 table) = table.map fun row => row.print showF32 := by
  have single : ∀ line ∈ table.map fun row => row.print showF32, '\n' ∉ line ∧ '\r' ∉ line := by
    intro line member
    obtain ⟨row,inside,rfl⟩ := List.mem_map.mp member
    exact (printable row inside).single
  rw [← readLines_written single,List.flatMap_map]
  rfl

-- What follows the header of the file is the text of the table.
theorem load_printed {showF32 : τ → List Char} {header : Except ε (List Char)} {table : List (Row τ)}
    (printable : ∀ row ∈ table, row.Printable parseF32 showF32)
    (written : openFile (config.fileName op) = .ok (header::(readLines (printTable showF32 table)).map .ok)) :
    ∃ grid, loadCsv parseF32 openFile config op = .ok grid ∧
      ∀ key, grid.lookup key = (table.reverse.find? fun row => row.key = key).map Row.value := by
  have readable : ∀ line ∈ table.map fun row => (.ok (row.print showF32) : Except ε (List Char)), ∃ s, line = .ok s := by
    intro line member
    obtain ⟨row,_,rfl⟩ := List.mem_map.mp member
    exact ⟨_,rfl⟩
  have each : rows parseF32 (table.map fun row => (.ok (row.print showF32) : Except ε (List Char))) =
      table.map fun row => (row.key,row.value) := by
    rw [rows,List.filterMap_map,← List.filterMap_eq_map]
    refine List.filterMap_congr fun row member => ?_
    exact csvRow_print (printable row member)
  obtain ⟨grid,done⟩ := loadLines_ok parseF32 readable ∅
  refine ⟨grid,?_,?_⟩
  · rw [loadCsv,written,readLines_printTable printable,List.map_map]
    exact done
  · intro key
    rw [loadLines_lookup done,each,← List.map_reverse,List.find?_map]
    simp [Function.comp_def,Option.map_map]

def wholeMs (s : List Char) : Option ℚ := (unsigned 1000 s).map fun n => (n : ℚ)

def shownMs (v : ℚ) : List Char := Nat.toDigits 10 v.num.toNat

def printedTwice : List (Row ℚ) := [.pair 16 3,.wide 16 0 ["forest".toList] 5]

theorem load_printed_again : ∃ grid, loadCsv wholeMs (fun _ => (.ok (.ok []::(readLines (printTable shownMs printedTwice)).map .ok) :
      Except Unit (Lines Unit))) .standard .add = .ok grid ∧
    ∀ key, grid.lookup key = (printedTwice.reverse.find? fun row => row.key = key).map Row.value := by
  refine load_printed ?_ rfl
  intro row member
  simp only [printedTwice,List.mem_cons,List.not_mem_nil,or_false] at member
  rcases member with rfl | rfl
  · exact ⟨by decide,by decide,fun cell member => absurd member List.not_mem_nil,⟨by decide,by decide,by decide⟩,by decide +kernel⟩
  · refine ⟨by decide,by decide,fun cell member => ?_,⟨by decide,by decide,by decide⟩,by decide +kernel⟩
    simp only [Row.middle,List.mem_cons,List.not_mem_nil,or_false] at member
    rcases member with rfl | rfl
    · exact plain_digits
    · exact ⟨by decide,by decide,by decide⟩

theorem loadCsv_ok (parseF32 : List Char → Option τ) {lines : Lines ε} (opened : openFile (config.fileName op) = .ok lines)
    (readable : ∀ line ∈ lines.drop 1, ∃ s, line = .ok s) : ∃ grid, loadCsv parseF32 openFile config op = .ok grid := by
  obtain ⟨grid,done⟩ := loadLines_ok parseF32 readable ∅
  refine ⟨grid,?_⟩
  rw [loadCsv,opened]
  exact done

theorem loadOps_ok (parseF32 : List Char → Option τ)
    (readable : ∀ op, ∃ lines, openFile (config.fileName op) = .ok lines ∧ ∀ line ∈ lines.drop 1, ∃ s, line = .ok s)
    (ops : List Op) (p : VidurRfPredictor τ) (configured : p.config = config) :
    ∃ q, VidurRfPredictor.loadOps parseF32 openFile ops p = .ok q := by
  induction ops generalizing p with
  | nil => exact ⟨p,rfl⟩
  | cons op rest ih =>
    obtain ⟨lines,opened,all⟩ := readable op
    obtain ⟨grid,read⟩ := loadCsv_ok parseF32 opened all
    simp only [VidurRfPredictor.loadOps,configured,read]
    exact ih _ configured

theorem new_ok (parseF32 : List Char → Option τ) (openFile : String → Except ε (Lines ε)) (config : SimulatorConfig τ)
    (readable : ∀ op, ∃ lines, openFile (config.fileName op) = .ok lines ∧ ∀ line ∈ lines.drop 1, ∃ s, line = .ok s) :
    ∃ p, VidurRfPredictor.new parseF32 openFile config = .ok p :=
  loadOps_ok parseF32 readable config.ops _ rfl

-- Every grid is what its file gives, and a cached value is that of its grid at
-- the full budget.
structure FromFiles (parseF32 : List Char → Option τ) (openFile : String → Except ε (Lines ε)) (config : SimulatorConfig τ)
    (p : VidurRfPredictor τ) : Prop where
  configured : p.config = config
  grids : ∀ op grid, p.grids.lookup op = some grid → loadCsv parseF32 openFile config op = .ok grid
  cache : ∀ op v, p.fullTokenCache.lookup op = some v →
    ∃ grid, p.grids.lookup op = some grid ∧ grid.lookup (config.tokenBudget,0) = some v

theorem FromFiles.empty : FromFiles parseF32 openFile config ⟨config,∅,∅⟩ :=
  ⟨rfl,fun _ _ found => by simp at found,fun _ _ found => by simp at found⟩

theorem FromFiles.addGrid (held : FromFiles parseF32 openFile config p) (read : loadCsv parseF32 openFile config op = .ok grid) :
    FromFiles parseF32 openFile config (p.addGrid op grid) := by
  refine ⟨held.configured,?_,?_⟩
  · intro other found holds
    by_cases same : other = op
    · subst same
      simp only [VidurRfPredictor.addGrid,AList.lookup_insert,Option.some.injEq] at holds
      exact holds ▸ read
    · simp only [VidurRfPredictor.addGrid,AList.lookup_insert_ne same] at holds
      exact held.grids other found holds
  · intro other v cached
    by_cases same : other = op
    · subst same
      refine ⟨grid,AList.lookup_insert _,?_⟩
      -- A value that was there before came from the same file.
      have before : ∀ v, p.fullTokenCache.lookup other = some v → grid.lookup (config.tokenBudget,0) = some v := by
        intro v old
        obtain ⟨first,found,value⟩ := held.cache other v old
        have again := (held.grids other first found).symm.trans read
        cases again
        exact value
      simp only [VidurRfPredictor.addGrid] at cached
      split at cached
      · split at cached
        · next value found =>
          simp only [AList.lookup_insert,Option.some.injEq] at cached
          exact cached ▸ held.configured ▸ found
        · exact before v cached
      · exact before v cached
    · have old : p.fullTokenCache.lookup other = some v := by
        simp only [VidurRfPredictor.addGrid] at cached
        split at cached
        · split at cached
          · simpa only [AList.lookup_insert_ne same] using cached
          · exact cached
        · exact cached
      simpa only [VidurRfPredictor.addGrid,AList.lookup_insert_ne same] using held.cache other v old

theorem FromFiles.loadOps (held : FromFiles parseF32 openFile config p) {ops : List Op}
    (done : VidurRfPredictor.loadOps parseF32 openFile ops p = .ok q) : FromFiles parseF32 openFile config q := by
  induction ops generalizing p with
  | nil =>
    cases done
    exact held
  | cons op rest ih =>
    simp only [VidurRfPredictor.loadOps,held.configured] at done
    cases read : loadCsv parseF32 openFile config op with
    | error e =>
      rw [read] at done
      cases done
    | ok grid =>
      rw [read] at done
      exact ih (held.addGrid read) done

theorem new_fromFiles (done : VidurRfPredictor.new parseF32 openFile config = .ok p) : FromFiles parseF32 openFile config p :=
  FromFiles.loadOps .empty done

end Files

end BlitzRouter.Vidur
