import TableQuery.Proofs.Data.Success
import TableQuery.Render.Csv

/-! # Reading comma separated text back

A grammar of comma separated text and a reader for it. The reader accepts the texts of the
grammar and no others, so that a text has one reading at most. The text of a table is in the
grammar, and it is read back as the column names and the cells of the rows.
-/
namespace TableQuery.Render.Csv

/-- A text is written between quotes, where a quote is written twice. -/
inductive Quotes : List Char → List Char → Prop where
  | nil : Quotes [] []
  | quote {written cs : List Char} (h : Quotes written cs) :
      Quotes ('"' :: '"' :: written) ('"' :: cs)
  | other {written cs : List Char} {c : Char} (hc : c ≠ '"') (h : Quotes written cs) :
      Quotes (c :: written) (c :: cs)

/-- Whether a character stands in a field without quotes. -/
def isBare (c : Char) : Bool := c != ',' && c != '"' && c != '\n' && c != '\r'

inductive WritesField : List Char → List Char → Prop where
  | bare {cs : List Char} (h : ∀ c ∈ cs, isBare c) : WritesField cs cs
  | quoted {written cs : List Char} (h : Quotes written cs) :
      WritesField ('"' :: (written ++ ['"'])) cs

/-- A line: a record of at least one field, commas between its fields and a line feed behind. -/
inductive WritesLine : List Char → List (List Char) → Prop where
  | last {written field : List Char} (h : WritesField written field) :
      WritesLine (written ++ ['\n']) [field]
  | next {written field line : List Char} {fields : List (List Char)}
      (h : WritesField written field) (hs : WritesLine line fields) :
      WritesLine (written ++ ',' :: line) (field :: fields)

inductive Writes : List Char → List (List (List Char)) → Prop where
  | nil : Writes [] []
  | cons {line lines : List Char} {fields : List (List Char)} {records : List (List (List Char))}
      (h : WritesLine line fields) (hs : Writes lines records) :
      Writes (line ++ lines) (fields :: records)

def readQuotes? : List Char → Option (List Char × List Char)
  | [] => none
  | '"' :: '"' :: rest => (readQuotes? rest).map fun read => ('"' :: read.1, read.2)
  | '"' :: rest => some ([], rest)
  | c :: rest => (readQuotes? rest).map fun read => (c :: read.1, read.2)

def readField? : List Char → Option (List Char × List Char)
  | '"' :: rest => readQuotes? rest
  | cs => some (cs.takeWhile isBare, cs.dropWhile isBare)

theorem quotes_of_readQuotes? {cs field rest : List Char}
    (h : readQuotes? cs = some (field, rest)) :
    ∃ written, cs = written ++ '"' :: rest ∧ Quotes written field := by
  induction cs using readQuotes?.induct generalizing field rest with
  | case1 => cases h
  | case2 cs ih =>
    obtain ⟨⟨inner, behind⟩, hread, heq⟩ := Option.map_eq_some_iff.mp h
    cases heq
    obtain ⟨written, rfl, hquotes⟩ := ih hread
    exact ⟨_, rfl, .quote hquotes⟩
  | case3 cs _ =>
    rw [readQuotes?] at h
    · cases h
      exact ⟨[], rfl, .nil⟩
    · assumption
  | case4 c cs _ hc ih =>
    rw [readQuotes?] at h
    · obtain ⟨⟨inner, behind⟩, hread, heq⟩ := Option.map_eq_some_iff.mp h
      cases heq
      obtain ⟨written, rfl, hquotes⟩ := ih hread
      exact ⟨_, rfl, .other hc hquotes⟩
    · assumption
    · assumption

theorem writesField_of_readField? {cs field rest : List Char}
    (h : readField? cs = some (field, rest)) :
    ∃ written, cs = written ++ rest ∧ WritesField written field := by
  unfold readField? at h
  split at h
  · obtain ⟨written, rfl, hquotes⟩ := quotes_of_readQuotes? h
    exact ⟨'"' :: (written ++ ['"']), by simp, .quoted hquotes⟩
  · cases h
    exact ⟨_, List.takeWhile_append_dropWhile.symm, .bare (List.all_eq_true.mp List.all_takeWhile)⟩

theorem length_le_of_readField? {cs field rest : List Char}
    (h : readField? cs = some (field, rest)) : rest.length ≤ cs.length := by
  obtain ⟨written, rfl, -⟩ := writesField_of_readField? h
  simp

def readLine? (cs : List Char) : Option (List (List Char) × List Char) :=
  match _h : readField? cs with
  | some (field, '\n' :: rest) => some ([field], rest)
  | some (field, ',' :: rest) => (readLine? rest).map fun read => (field :: read.1, read.2)
  | _ => none
termination_by cs.length
decreasing_by exact length_le_of_readField? (by assumption)

theorem readLine?_of_last {cs field rest : List Char}
    (h : readField? cs = some (field, '\n' :: rest)) : readLine? cs = some ([field], rest) := by
  rw [readLine?]
  split <;> simp_all

theorem readLine?_of_next {cs field rest : List Char}
    (h : readField? cs = some (field, ',' :: rest)) :
    readLine? cs = (readLine? rest).map fun read => (field :: read.1, read.2) := by
  rw [readLine?]
  split <;> simp_all

theorem writesLine_of_readLine? {cs rest : List Char} {fields : List (List Char)}
    (h : readLine? cs = some (fields, rest)) :
    ∃ line, cs = line ++ rest ∧ WritesLine line fields := by
  induction cs using readLine?.induct generalizing fields rest with
  | case1 cs field behind hfield =>
    rw [readLine?_of_last hfield] at h
    cases h
    obtain ⟨written, rfl, hwrites⟩ := writesField_of_readField? hfield
    exact ⟨written ++ ['\n'], by simp, .last hwrites⟩
  | case2 cs field behind hfield ih =>
    rw [readLine?_of_next hfield] at h
    obtain ⟨⟨fields, behind⟩, hread, heq⟩ := Option.map_eq_some_iff.mp h
    cases heq
    obtain ⟨line, rfl, hline⟩ := ih hread
    obtain ⟨written, rfl, hwrites⟩ := writesField_of_readField? hfield
    exact ⟨written ++ ',' :: line, by simp, .next hwrites hline⟩
  | case3 cs hlast hnext =>
    rw [readLine?] at h
    split at h
    · exact absurd ‹_› (hlast _ _)
    · exact absurd ‹_› (hnext _ _)
    · cases h

theorem WritesLine.ne_nil {line : List Char} {fields : List (List Char)}
    (h : WritesLine line fields) : line ≠ [] := by
  cases h <;> simp

theorem length_lt_of_readLine? {cs rest : List Char} {fields : List (List Char)}
    (h : readLine? cs = some (fields, rest)) : rest.length < cs.length := by
  obtain ⟨line, rfl, hline⟩ := writesLine_of_readLine? h
  have hpos := List.length_pos_iff.mpr hline.ne_nil
  rw [List.length_append]
  omega

def read? (cs : List Char) : Option (List (List (List Char))) :=
  if cs = [] then some []
  else
    match _h : readLine? cs with
    | some (fields, rest) => (read? rest).map (fields :: ·)
    | none => none
termination_by cs.length
decreasing_by exact length_lt_of_readLine? (by assumption)

@[simp] theorem read?_nil : read? [] = some [] := by
  rw [read?]
  rfl

theorem read?_of_line {cs rest : List Char} {fields : List (List Char)}
    (h : readLine? cs = some (fields, rest)) : read? cs = (read? rest).map (fields :: ·) := by
  have hne : cs ≠ [] := fun hnil => by
    have hlt := length_lt_of_readLine? h
    rw [hnil] at hlt
    exact absurd hlt (Nat.not_lt_zero _)
  rw [read?, if_neg hne]
  split <;> simp_all

theorem writes_of_read? {cs : List Char} {records : List (List (List Char))}
    (h : read? cs = some records) : Writes cs records := by
  induction cs using read?.induct generalizing records with
  | case1 =>
    rw [read?_nil] at h
    cases h
    exact .nil
  | case2 cs hne fields rest hline ih =>
    rw [read?_of_line hline] at h
    obtain ⟨records, hread, rfl⟩ := Option.map_eq_some_iff.mp h
    obtain ⟨line, rfl, hwrites⟩ := writesLine_of_readLine? hline
    exact .cons hwrites (ih hread)
  | case3 cs hne hnone =>
    rw [read?, if_neg hne] at h
    split at h <;> simp_all

theorem Quotes.readQuotes? {written cs rest : List Char} (h : Quotes written cs)
    (hrest : rest.head? ≠ some '"') : readQuotes? (written ++ '"' :: rest) = some (cs, rest) := by
  induction h with
  | nil =>
    cases rest with
    | nil => rfl
    | cons c rest =>
      rw [List.nil_append, Csv.readQuotes?]
      rintro tail heq
      injection heq with hc
      exact hrest (by rw [hc]; rfl)
  | quote h ih =>
    rw [List.cons_append, List.cons_append, Csv.readQuotes?, ih]
    rfl
  | other hc h ih =>
    rw [List.cons_append, Csv.readQuotes?, ih]
    · rfl
    · rintro tail heq
      exact absurd heq hc
    · exact hc

def EndsField (c : Char) : Prop := c = ',' ∨ c = '\n'

theorem WritesField.readField? {written field : List Char} (h : WritesField written field)
    {c : Char} (hc : EndsField c) (rest : List Char) :
    readField? (written ++ c :: rest) = some (field, c :: rest) := by
  have hquote : c ≠ '"' := by rcases hc with rfl | rfl <;> decide
  have hbare : isBare c = false := by rcases hc with rfl | rfl <;> decide
  cases h with
  | bare hall =>
    have hspan : (written ++ c :: rest).takeWhile isBare = written ∧
        (written ++ c :: rest).dropWhile isBare = c :: rest := by
      rw [List.takeWhile_append_of_pos hall, List.dropWhile_append_of_pos hall]
      simp [hbare]
    have hfront : ∀ tail, written ++ c :: rest ≠ '"' :: tail := by
      intro tail heq
      cases written with
      | nil => exact hquote (List.cons.inj heq).1
      | cons d written =>
        have hd := hall d List.mem_cons_self
        rw [(List.cons.inj heq).1] at hd
        exact absurd hd (by decide)
    rw [Csv.readField?, hspan.1, hspan.2]
    exact hfront
  | quoted hquotes =>
    rw [List.cons_append, List.append_assoc]
    exact hquotes.readQuotes? (by simpa using hquote)

theorem WritesLine.readLine? {line : List Char} {fields : List (List Char)}
    (h : WritesLine line fields) (rest : List Char) :
    readLine? (line ++ rest) = some (fields, rest) := by
  induction h with
  | last h =>
    rw [List.append_assoc]
    exact readLine?_of_last (h.readField? (.inr rfl) rest)
  | next h hs ih =>
    rw [List.append_assoc, List.cons_append, readLine?_of_next (h.readField? (.inl rfl) _), ih]
    rfl

theorem Writes.read? {cs : List Char} {records : List (List (List Char))}
    (h : Writes cs records) : read? cs = some records := by
  induction h with
  | nil => exact read?_nil
  | cons h hs ih =>
    rw [read?_of_line (h.readLine? _), ih]
    rfl

theorem read?_eq_some_iff {cs : List Char} {records : List (List (List Char))} :
    read? cs = some records ↔ Writes cs records :=
  ⟨writes_of_read?, Writes.read?⟩

theorem quotes_doubled (cs : List Char) : Quotes (doubled cs) cs := by
  induction cs with
  | nil => exact .nil
  | cons c cs ih =>
    unfold doubled at ih ⊢
    rw [List.flatMap_cons]
    by_cases hc : c = '"'
    · rw [if_pos hc, hc]
      exact .quote ih
    · rw [if_neg hc]
      exact .other hc ih

theorem writesField_field (cs : List Char) : WritesField (field cs) cs := by
  unfold field
  cases hneeds : needsQuotes cs with
  | true => exact .quoted (quotes_doubled cs)
  | false =>
    refine .bare fun c hc => ?_
    have hplain := List.any_eq_false.mp hneeds c hc
    simp only [Bool.or_eq_true, beq_iff_eq, not_or] at hplain
    simp [isBare, hplain]

theorem writesLine_line {fields : List (List Char)} (h : fields ≠ []) :
    WritesLine (line fields) fields := by
  induction fields with
  | nil => exact absurd rfl h
  | cons first fields ih =>
    have hfirst := writesField_field first
    cases fields with
    | nil =>
      have hlast : line [first] = field first ++ ['\n'] := by simp [line]
      rw [hlast]
      exact .last hfirst
    | cons second fields =>
      have hnext : line (first :: second :: fields) =
          field first ++ ',' :: line (second :: fields) := by
        simp [line, List.intercalate_cons_cons]
      rw [hnext]
      exact .next hfirst (ih (List.cons_ne_nil _ _))

theorem writes_ofRecords {records : List (List String)} (h : ∀ fields ∈ records, fields ≠ []) :
    Writes (ofRecords records).toList (records.map (·.map String.toList)) := by
  rw [ofRecords, String.toList_ofList]
  induction records with
  | nil => exact .nil
  | cons fields records ih =>
    rw [List.flatMap_cons]
    have hne : fields.map String.toList ≠ [] := by
      simpa using h fields List.mem_cons_self
    have hrest := ih fun other hother => h other (List.mem_cons_of_mem _ hother)
    exact .cons (writesLine_line hne) hrest

/-- The text of a row's own field in a column, empty where it has no such field. -/
def ownText (row : Row) (column : String) : String :=
  match Record.get? row column with
  | some v => v.cell
  | none => ""

theorem cell_eq_ok {noted : Record.Noted} (property : String) (row : Row) {column : String}
    (h : noted.answers column = false) :
    cell noted property row column = .ok (ownText row column) := by
  unfold cell ownText
  cases Record.get? row column with
  | some v => rfl
  | none =>
    rw [h]
    rfl

/-- The records of a table: its header, and the texts of each row in the columns of the header. -/
def tableOf (header : List String) (rows : List Row) : List (List String) :=
  header :: rows.map fun row => header.map (ownText row)

theorem text_eq_ok {noted : Record.Noted} {first : Row} {rest : List Row}
    (h : ∀ name ∈ Record.names first, noted.answers name = false) :
    text noted (first :: rest) =
      .ok (ofRecords (tableOf (Record.names first) (first :: rest))) := by
  have hlines : ((first :: rest).mapM fun row =>
        (Record.names first).mapM (cell noted "includes" row)) =
      .ok ((first :: rest).map fun row => (Record.names first).map (ownText row)) :=
    Success.mapM_eq_ok fun row _ =>
      Success.mapM_eq_ok fun name hname => cell_eq_ok "includes" row (h name hname)
  unfold text records columns
  rw [if_neg (by simp)]
  dsimp only
  rw [hlines]
  rfl

end TableQuery.Render.Csv
