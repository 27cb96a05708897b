/-
# The statement for an imported table

`quote_ident`, `quote_str` and `build_create_table_ddl` of `src/fdw/import_schema.rs`.  The names
in the statement come from blob listings and parquet files.  PostgreSQL reads it as one
`CREATE FOREIGN TABLE` with each name as one token, whatever characters the names hold
(`lex_buildCreateTableDdl`): a doubled quote cannot end a token, and what stands behind each
token neither continues nor changes it.
-/

import ParquetAzureFdw.Convert.ArrowToPg
import ParquetAzureFdw.Lib.SqlText

namespace ParquetAzureFdw

open Scanning SqlText

/-- The text between quotes, with its own quotes doubled. -/
def quoteWith (quote : Char) (s : String) : String :=
  String.ofList (quote :: (doubled quote s.toList ++ [quote]))

/-- `quote_ident`. -/
def quoteIdent (s : String) : String := quoteWith '"' s

/-- `quote_str`. -/
def quoteStr (s : String) : String := quoteWith '\'' s

/-- An iteration of the loop over the columns, with the index of the column. -/
def pushColumn (s : String) (column : (String × String) × ℕ) : String :=
  let s := if 0 < column.2 then s ++ ",\n" else s
  s ++ "    " ++ quoteIdent column.1.1 ++ " " ++ column.1.2

/-- `build_create_table_ddl`. -/
def buildCreateTableDdl (localSchema tableName serverName container filenameGlob : String)
    (columns : List (String × String)) : String :=
  let s := "CREATE FOREIGN TABLE " ++ quoteIdent localSchema ++ "." ++ quoteIdent tableName ++
    " (\n"
  let s := columns.zipIdx.foldl pushColumn s
  s ++ "\n) SERVER " ++ quoteIdent serverName ++ " OPTIONS (" ++ "container " ++
    quoteStr container ++ ", filename " ++ quoteStr filenameGlob ++ ");"

/-! ### The tokens it stands for -/

/-- The tokens of a scale: a sign, if there is one, and the digits. -/
def scaleTokens (s : ℤ) : List Token :=
  if s < 0 then [.symbol '-', .integer (toString s.natAbs)] else [.integer (toString s.natAbs)]

/-- The tokens of the type name of an arrow type. -/
def typeTokens : DataType → List Token
  | .boolean => [.word "boolean"]
  | .int16 => [.word "smallint"]
  | .int32 => [.word "integer"]
  | .int64 => [.word "bigint"]
  | .float32 => [.word "real"]
  | .float64 => [.word "double", .word "precision"]
  | .utf8 | .largeUtf8 => [.word "text"]
  | .binary | .largeBinary => [.word "bytea"]
  | .date32 => [.word "date"]
  | .timestamp _ none => [.word "timestamp"]
  | .timestamp _ (some _) => [.word "timestamptz"]
  | .decimal128 p s =>
    [.word "numeric", .symbol '(', .integer (toString p), .symbol ','] ++ scaleTokens s ++
      [.symbol ')']
  | .other _ => []

/-- The tokens of a column. -/
def columnTokens (column : String × DataType) : List Token :=
  .ident column.1 :: typeTokens column.2

/-- The tokens of the columns: a comma stands before each but the first. -/
def columnsTokens : List (String × DataType) → List Token
  | [] => []
  | column :: columns =>
    columnTokens column ++ columns.flatMap fun column => .symbol ',' :: columnTokens column

/-- One `CREATE FOREIGN TABLE` statement. -/
def createTableTokens (localSchema tableName serverName container filenameGlob : String)
    (columns : List (String × DataType)) : List Token :=
  let table : List Token := [.word "create", .word "foreign", .word "table", .ident localSchema,
    .symbol '.', .ident tableName]
  let options : List Token := [.word "server", .ident serverName, .word "options", .symbol '(',
    .word "container", .string container, .symbol ',', .word "filename", .string filenameGlob,
    .symbol ')', .symbol ';']
  table ++ .symbol '(' :: (columnsTokens columns ++ .symbol ')' :: options)

/-! ### Reading it -/

section Reading

variable {l : List Char} {tokens : List Token}

theorem toList_quoteWith (quote : Char) (s : String) :
    (quoteWith quote s).toList = quote :: (doubled quote s.toList ++ [quote]) := by
  simp [quoteWith]

theorem lexes_quoteIdent {s : String} (hne : s ≠ "") (hnul : '\x00' ∉ s.toList)
    (hstop : StopsAt (· != '"') l) (h : Lexes .initial l tokens) :
    Lexes .initial ((quoteIdent s).toList ++ l) (.ident s :: tokens) := by
  have hlex := lexes_delimited (by simpa using hne : s.toList ≠ []) hnul hstop h
  rw [String.ofList_toList] at hlex
  simpa [quoteIdent, toList_quoteWith] using hlex

theorem lexes_dot_quoteIdent {s : String} (h : Lexes .initial ((quoteIdent s).toList ++ l) tokens) :
    Lexes .initial ('.' :: ((quoteIdent s).toList ++ l)) (.symbol '.' :: tokens) := by
  rw [quoteIdent, toList_quoteWith, List.cons_append] at h ⊢
  exact lexes_dot h

theorem lexes_quoteStr {s : String} (hnul : '\x00' ∉ s.toList)
    (hstop : StopsAt (fun c => c != '\'' && c != '-' && !isSpace c) l)
    (h : Lexes .initial l tokens) :
    Lexes .initial ((quoteStr s).toList ++ l) (.string s :: tokens) := by
  have hlex := lexes_quoted hnul hstop h
  rw [String.ofList_toList] at hlex
  simpa [quoteStr, toList_quoteWith] using hlex

theorem isDigit_of_mem_toString {n : ℕ} {c : Char} (hc : c ∈ (toString n).toList) :
    c.isDigit = true := by
  rw [Nat.toString_eq_repr, Nat.toList_repr] at hc
  exact Nat.isDigit_of_mem_toDigits (by decide) le_rfl hc

theorem toList_toString_ne_nil (n : ℕ) : (toString n).toList ≠ [] := by
  rw [Nat.toString_eq_repr, Nat.toList_repr]
  exact Nat.toDigits_ne_nil

theorem lexes_toString (n : ℕ) (hstop : StopsAt (fun c => !isIdentCont c && c != '.') l)
    (h : Lexes .initial l tokens) :
    Lexes .initial ((toString n).toList ++ l) (.integer (toString n) :: tokens) := by
  have hlex := lexes_integer (toList_toString_ne_nil n)
    (fun c hc => isDigit_of_mem_toString hc) hstop h
  rwa [String.ofList_toList] at hlex

/-- The text of a negative number is that of its amount behind a sign. -/
theorem toString_of_neg {s : ℤ} (hs : s < 0) : toString s = "-" ++ toString s.natAbs := by
  obtain ⟨n, rfl⟩ := Int.eq_negSucc_of_lt_zero hs
  rfl

theorem toString_of_nonneg {s : ℤ} (hs : 0 ≤ s) : toString s = toString s.natAbs := by
  obtain ⟨n, rfl⟩ := Int.eq_ofNat_of_zero_le hs
  rfl

theorem lexes_scale (s : ℤ) (hstop : StopsAt (fun c => !isIdentCont c && c != '.') l)
    (h : Lexes .initial l tokens) :
    Lexes .initial ((toString s).toList ++ l) (scaleTokens s ++ tokens) := by
  have hamount := lexes_toString s.natAbs hstop h
  by_cases hs : s < 0
  · rw [toString_of_neg hs, scaleTokens, if_pos hs]
    obtain ⟨c, digits, hdigits⟩ := List.exists_cons_of_ne_nil (toList_toString_ne_nil s.natAbs)
    have hc : c.isDigit = true := isDigit_of_mem_toString (hdigits ▸ List.mem_cons_self)
    rw [hdigits] at hamount
    rw [String.toList_append, hdigits]
    simpa using lexes_minus hc hamount
  · rw [toString_of_nonneg (not_lt.mp hs), scaleTokens, if_neg hs]
    exact hamount

/-- The text is a plain word whose lower case is the other text. -/
def isWordFor (text lower : String) : Bool :=
  isPlainWord text.toList && String.ofList (text.toList.map Char.toLower) == lower

theorem lexes_text {text lower : String} (htext : isWordFor text lower = true)
    (hstop : StopsAt (fun c => !isIdentCont c) l) (h : Lexes .initial l tokens) :
    Lexes .initial (text.toList ++ l) (.word lower :: tokens) := by
  obtain ⟨hword, hlower⟩ := (Bool.and_eq_true _ _).mp htext
  rw [← beq_iff_eq.mp hlower]
  exact lexes_word hword hstop h

/-- A word with a blank behind it. -/
theorem lexes_text_blank {text lower : String} (htext : isWordFor text lower = true)
    (h : Lexes .initial l tokens) :
    Lexes .initial (text.toList ++ ' ' :: l) (.word lower :: tokens) :=
  lexes_text htext (stopsAt_cons.mpr (by decide)) (lexes_space (by decide) h)

/-- **A type name is read as its tokens.** -/
theorem lexes_typename {ty : DataType} {text : String} (hty : arrowTypeToPgTypename ty = .ok text)
    (hstop : StopsAt (fun c => !isIdentCont c) l) (h : Lexes .initial l tokens) :
    Lexes .initial (text.toList ++ l) (typeTokens ty ++ tokens) := by
  cases ty with
  | boolean | int16 | int32 | int64 | float32 | utf8 | largeUtf8 | binary | largeBinary
  | date32 =>
    cases hty
    exact lexes_text (by decide) hstop h
  | float64 =>
    cases hty
    have hwords := lexes_text_blank (by decide : isWordFor "DOUBLE" "double" = true)
      (lexes_text (by decide : isWordFor "PRECISION" "precision" = true) hstop h)
    simpa [typeTokens] using hwords
  | timestamp unit tz =>
    cases unit <;> cases tz <;> cases hty <;> exact lexes_text (by decide) hstop h
  | decimal128 p s =>
    cases hty
    have hclose : Lexes .initial (')' :: l) (.symbol ')' :: tokens) := lexes_symbol (by decide) h
    have hscale := lexes_scale s (stopsAt_cons.mpr (by decide)) hclose
    have hcomma := lexes_symbol (by decide : ",();".toList.contains ',' = true) hscale
    have hprecision := lexes_toString p (stopsAt_cons.mpr (by decide)) hcomma
    have hopen := lexes_symbol (by decide : ",();".toList.contains '(' = true) hprecision
    have hword := lexes_text (by decide : isWordFor "NUMERIC" "numeric" = true)
      (stopsAt_cons.mpr (by decide)) hopen
    simpa [typeTokens] using hword
  | other name => cases hty

/-! ### The columns -/

/-- The text of a column in the statement. -/
def columnText (column : String × String) : List Char :=
  ' ' :: ' ' :: ' ' :: ' ' :: ((quoteIdent column.1).toList ++ ' ' :: column.2.toList)

/-- The text of columns that are not the first. -/
def furtherText (columns : List (String × String)) : List Char :=
  columns.flatMap fun column => ',' :: '\n' :: columnText column

theorem furtherText_cons (column : String × String) (columns : List (String × String)) :
    furtherText (column :: columns) = ',' :: '\n' :: (columnText column ++ furtherText columns) := by
  simp only [furtherText, List.flatMap_cons, List.cons_append]

/-- The text of all columns. -/
def columnsText : List (String × String) → List Char
  | [] => []
  | column :: columns => columnText column ++ furtherText columns

theorem toList_foldl_pushColumn_succ (s : String) (columns : List (String × String)) (i : ℕ) :
    ((columns.zipIdx (i + 1)).foldl pushColumn s).toList = s.toList ++ furtherText columns := by
  induction columns generalizing s i with
  | nil => simp [furtherText]
  | cons column columns ih =>
    rw [List.zipIdx_cons, List.foldl_cons, ih]
    simp [pushColumn, furtherText, columnText]

theorem toList_foldl_pushColumn (s : String) (columns : List (String × String)) :
    (columns.zipIdx.foldl pushColumn s).toList = s.toList ++ columnsText columns := by
  cases columns with
  | nil => simp [columnsText]
  | cons column columns =>
    rw [List.zipIdx_cons, List.foldl_cons, toList_foldl_pushColumn_succ]
    simp [pushColumn, columnText, columnsText]

/-- A column with a usable name and the type name of its arrow type. -/
structure NamesColumn (column : String × String) (ty : DataType) : Prop where
  ne_empty : column.1 ≠ ""
  nul_free : '\x00' ∉ column.1.toList
  typename : arrowTypeToPgTypename ty = .ok column.2

theorem lexes_column {column : String × String} {ty : DataType} (hcolumn : NamesColumn column ty)
    (hstop : StopsAt (fun c => !isIdentCont c) l) (h : Lexes .initial l tokens) :
    Lexes .initial (columnText column ++ l) (columnTokens (column.1, ty) ++ tokens) := by
  have htype := lexes_space (by decide : isSpace ' ' = true)
    (lexes_typename hcolumn.typename hstop h)
  have hname := lexes_quoteIdent hcolumn.ne_empty hcolumn.nul_free
    (stopsAt_cons.mpr (by decide)) htype
  have hindent := lexes_space (by decide : isSpace ' ' = true)
    (lexes_space (by decide : isSpace ' ' = true) (lexes_space (by decide : isSpace ' ' = true)
      (lexes_space (by decide : isSpace ' ' = true) hname)))
  simpa [columnText, columnTokens] using hindent

/-- The columns behind the first, with the commas before them. -/
theorem lexes_furtherText {columns : List (String × String)} {types : List DataType}
    (hcolumns : List.Forall₂ NamesColumn columns types)
    (hstop : StopsAt (fun c => !isIdentCont c) l) (h : Lexes .initial l tokens) :
    StopsAt (fun c => !isIdentCont c) (furtherText columns ++ l) ∧
      Lexes .initial (furtherText columns ++ l)
        ((((columns.map Prod.fst).zip types).flatMap fun column =>
          .symbol ',' :: columnTokens column) ++ tokens) := by
  induction hcolumns with
  | nil => exact ⟨hstop, h⟩
  | @cons column ty columns types hcolumn _ ih =>
    have hrest := lexes_column hcolumn ih.1 ih.2
    have hcomma := lexes_symbol (by decide : ",();".toList.contains ',' = true)
      (lexes_space (by decide : isSpace '\n' = true) hrest)
    rw [furtherText_cons]
    exact ⟨by simp; decide, by simpa using hcomma⟩

theorem lexes_columns {columns : List (String × String)} {types : List DataType}
    (hcolumns : List.Forall₂ NamesColumn columns types)
    (hstop : StopsAt (fun c => !isIdentCont c) l) (h : Lexes .initial l tokens) :
    Lexes .initial (columnsText columns ++ l)
      (columnsTokens ((columns.map Prod.fst).zip types) ++ tokens) := by
  cases hcolumns with
  | nil => exact h
  | cons hcolumn hcolumns =>
    obtain ⟨hstop, hfurther⟩ := lexes_furtherText hcolumns hstop h
    have hall := lexes_column hcolumn hstop hfurther
    simpa [columnsText, columnsTokens] using hall

end Reading

/-! ### Its characters -/

section NulFree

theorem nul_not_mem_quoteWith {quote : Char} (hquote : quote ≠ '\x00') {s : String}
    (hnul : '\x00' ∉ s.toList) : '\x00' ∉ (quoteWith quote s).toList := by
  simp only [toList_quoteWith, doubled, List.mem_cons, List.mem_append, List.mem_flatMap,
    List.not_mem_nil, or_false, hquote.symm, false_or]
  rintro ⟨c, hc, hmem⟩
  split_ifs at hmem with heq
  · simp [hquote.symm] at hmem
  · rw [List.mem_singleton.mp hmem] at hnul
    exact hnul hc

theorem nul_not_mem_toString (n : ℕ) : '\x00' ∉ (toString n).toList := fun h =>
  absurd (isDigit_of_mem_toString h) (by decide)

theorem nul_not_mem_typename {ty : DataType} {text : String}
    (hty : arrowTypeToPgTypename ty = .ok text) : '\x00' ∉ text.toList := by
  cases ty with
  | boolean | int16 | int32 | int64 | float32 | float64 | utf8 | largeUtf8 | binary
  | largeBinary | date32 =>
    cases hty
    decide
  | timestamp unit tz => cases unit <;> cases tz <;> cases hty <;> decide
  | decimal128 p s =>
    cases hty
    have hp := nul_not_mem_toString p
    have hamount := nul_not_mem_toString s.natAbs
    by_cases hs : s < 0
    · rw [toString_of_neg hs]
      simpa using And.intro hp hamount
    · rw [toString_of_nonneg (not_lt.mp hs)]
      simpa using And.intro hp hamount
  | other name => cases hty

theorem nul_not_mem_columnText {column : String × String} {ty : DataType}
    (hcolumn : NamesColumn column ty) : '\x00' ∉ columnText column := by
  simp [columnText, quoteIdent, nul_not_mem_quoteWith _ hcolumn.nul_free,
    nul_not_mem_typename hcolumn.typename]

theorem nul_not_mem_furtherText {columns : List (String × String)} {types : List DataType}
    (hcolumns : List.Forall₂ NamesColumn columns types) : '\x00' ∉ furtherText columns := by
  induction hcolumns with
  | nil => exact List.not_mem_nil
  | cons hcolumn _ ih => simp [furtherText_cons, nul_not_mem_columnText hcolumn, ih]

theorem nul_not_mem_columnsText {columns : List (String × String)} {types : List DataType}
    (hcolumns : List.Forall₂ NamesColumn columns types) : '\x00' ∉ columnsText columns := by
  cases hcolumns with
  | nil => exact List.not_mem_nil
  | cons hcolumn hcolumns =>
    simp [columnsText, nul_not_mem_columnText hcolumn, nul_not_mem_furtherText hcolumns]

end NulFree

section Statement

variable {localSchema tableName serverName container filenameGlob : String}
  {columns : List (String × String)} {types : List DataType}

theorem nul_not_mem_buildCreateTableDdl (hschemaNul : '\x00' ∉ localSchema.toList)
    (htableNul : '\x00' ∉ tableName.toList) (hserverNul : '\x00' ∉ serverName.toList)
    (hcontainerNul : '\x00' ∉ container.toList) (hfilenameNul : '\x00' ∉ filenameGlob.toList)
    (hnames : List.Forall₂ NamesColumn columns types) :
    '\x00' ∉ (buildCreateTableDdl localSchema tableName serverName container filenameGlob
      columns).toList := by
  simp [buildCreateTableDdl, toList_foldl_pushColumn, nul_not_mem_columnsText hnames, quoteIdent,
    quoteStr, nul_not_mem_quoteWith, hschemaNul, htableNul, hserverNul, hcontainerNul,
    hfilenameNul]

/-- **The statement for a table cannot be injected into.**  Whatever the names hold, PostgreSQL
reads one `CREATE FOREIGN TABLE` with each name as one token. -/
theorem lex_buildCreateTableDdl
    (hschema : localSchema ≠ "") (htable : tableName ≠ "") (hserver : serverName ≠ "")
    (hschemaNul : '\x00' ∉ localSchema.toList) (htableNul : '\x00' ∉ tableName.toList)
    (hserverNul : '\x00' ∉ serverName.toList) (hcontainerNul : '\x00' ∉ container.toList)
    (hfilenameNul : '\x00' ∉ filenameGlob.toList)
    (hnames : List.Forall₂ NamesColumn columns types) :
    lex (buildCreateTableDdl localSchema tableName serverName container filenameGlob columns) =
      some (createTableTokens localSchema tableName serverName container filenameGlob
        ((columns.map Prod.fst).zip types)) := by
  have hend := lexes_symbol (by decide : ",();".toList.contains ')' = true)
    (lexes_symbol (by decide : ",();".toList.contains ';' = true) lexes_end)
  have hfilename := lexes_text_blank (by decide : isWordFor "filename" "filename" = true)
    (lexes_quoteStr hfilenameNul (stopsAt_cons.mpr (by decide)) hend)
  have hcontainer := lexes_text_blank (by decide : isWordFor "container" "container" = true)
    (lexes_quoteStr hcontainerNul (stopsAt_cons.mpr (by decide))
      (lexes_symbol (by decide : ",();".toList.contains ',' = true)
        (lexes_space (by decide : isSpace ' ' = true) hfilename)))
  have hoptions := lexes_text_blank (by decide : isWordFor "OPTIONS" "options" = true)
    (lexes_symbol (by decide : ",();".toList.contains '(' = true) hcontainer)
  have hserver := lexes_text_blank (by decide : isWordFor "SERVER" "server" = true)
    (lexes_quoteIdent hserver hserverNul (stopsAt_cons.mpr (by decide))
      (lexes_space (by decide : isSpace ' ' = true) hoptions))
  have hclose := lexes_symbol (by decide : ",();".toList.contains ')' = true)
    (lexes_space (by decide : isSpace ' ' = true) hserver)
  have hcolumns := lexes_columns hnames (stopsAt_cons.mpr (by decide))
    (lexes_space (by decide : isSpace '\n' = true) hclose)
  have hopen := lexes_symbol (by decide : ",();".toList.contains '(' = true)
    (lexes_space (by decide : isSpace '\n' = true) hcolumns)
  have htable := lexes_quoteIdent htable htableNul (stopsAt_cons.mpr (by decide))
    (lexes_space (by decide : isSpace ' ' = true) hopen)
  have hall := lexes_text_blank (by decide : isWordFor "CREATE" "create" = true)
    (lexes_text_blank (by decide : isWordFor "FOREIGN" "foreign" = true)
      (lexes_text_blank (by decide : isWordFor "TABLE" "table" = true)
        (lexes_quoteIdent hschema hschemaNul (stopsAt_cons.mpr (by decide))
          (lexes_dot_quoteIdent htable))))
  refine lex_eq_some ?_
  rw [cString_eq (nul_not_mem_buildCreateTableDdl hschemaNul htableNul hserverNul hcontainerNul
    hfilenameNul hnames)]
  simpa [buildCreateTableDdl, toList_foldl_pushColumn, createTableTokens] using hall

/-- A table name with a statement of its own and column names with a comment and a newline. -/
theorem hostile_names_stay_names :
    lex (buildCreateTableDdl "public" "t\"; DROP TABLE users; --" "srv" "c'" "a\\'/*.parquet"
      [("x\ny", "NUMERIC(10,-2)"), ("/*", "DOUBLE PRECISION")]) =
      some (createTableTokens "public" "t\"; DROP TABLE users; --" "srv" "c'" "a\\'/*.parquet"
        [("x\ny", .decimal128 10 (-2)), ("/*", .float64)]) := by
  have hdecimal : NamesColumn ("x\ny", "NUMERIC(10,-2)") (.decimal128 10 (-2)) :=
    ⟨by decide, by decide, rfl⟩
  have hdouble : NamesColumn ("/*", "DOUBLE PRECISION") .float64 := ⟨by decide, by decide, rfl⟩
  exact lex_buildCreateTableDdl (by decide) (by decide) (by decide) (by decide) (by decide)
    (by decide) (by decide) (by decide) (.cons hdecimal (.cons hdouble .nil))

end Statement

end ParquetAzureFdw
