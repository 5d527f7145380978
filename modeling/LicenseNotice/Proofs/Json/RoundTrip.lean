import Mathlib.Data.List.Forall2
import LicenseNotice.Json.Parser
import LicenseNotice.Json.Printer

/-! # Printed data are read back

Every layout that puts only white space between the pieces can be read, so what a datum of texts,
lists and records is printed as is parsed to that datum. The parser's bounds are lengths: a piece is
shorter than what it is enclosed in, and a list has fewer items than characters.
-/

namespace LicenseNotice

set_option autoImplicit false

/-- In front of any text, the reader takes the piece as that value. -/
def Reader.Reads {α : Type} (r : Reader α) (piece : List Char) (a : α) : Prop :=
  ∀ rest, r (piece ++ rest) = some (a, rest)

/-- No part is a number, a truth value or a value that cannot be used. -/
inductive Datum.Plain : Datum → Prop
  | null : Plain null
  | text (value : String) : Plain (text value)
  | list {items : List Datum} (h : ∀ item ∈ items, Plain item) : Plain (list items)
  | record {fields : List (String × Datum)} (h : ∀ field ∈ fields, Plain field.2) :
      Plain (record fields)

namespace Json

/-! Quoted texts -/

theorem numberOf?_hexDigit {n : Nat} (h : n < 0x20) :
    Text.numberOf? 16 ['0', '0', hexDigit (n / 16), hexDigit (n % 16)] = some n := by
  decide +revert

theorem joinUnits_code {n : Nat} (h : n < 0x20) (later : List TextUnit) :
    joinUnits (.code n :: later) = (joinUnits later).map (Char.ofNat n :: ·) := by
  have hhigh : isHighSurrogate n = false := by
    simp only [isHighSurrogate, Bool.and_eq_false_iff, decide_eq_false_iff_not]
    omega
  have hlow : isLowSurrogate n = false := by
    simp only [isLowSurrogate, Bool.and_eq_false_iff, decide_eq_false_iff_not]
    omega
  cases later with
  | nil => simp [joinUnits, hhigh, hlow]
  | cons unit rest => cases unit <;> simp [joinUnits, hhigh, hlow]

/-- What a character is escaped to is one unit, and that unit spells the character. -/
theorem units_escape (c : Char) : ∃ unit,
    (∀ rest, units (escape c ++ rest) = (units rest).map fun (later, rest) => (unit :: later, rest)) ∧
    ∀ later, joinUnits (unit :: later) = (joinUnits later).map (c :: ·) := by
  unfold escape
  split
  case h_8 hquote hbackslash _ _ _ _ _ =>
    split
    case isTrue hcontrol =>
      refine ⟨.code c.toNat, fun rest => ?_, fun later => ?_⟩
      · simp only [List.cons_append, List.nil_append, units, numberOf?_hexDigit hcontrol]
        cases units rest <;> rfl
      · rw [joinUnits_code hcontrol, Char.ofNat_toNat]
    case isFalse hcontrol =>
      refine ⟨.char c, fun rest => ?_, fun _ => rfl⟩
      rw [List.singleton_append, units, if_neg hcontrol]
      · cases units rest <;> rfl
      · exact hquote
      · exact fun _ _ _ _ _ h _ => hbackslash h
      · exact fun _ _ h _ => hbackslash h
  -- a backslash and one letter
  all_goals
    refine ⟨.char _, fun rest => ?_, fun _ => rfl⟩
    simp only [List.cons_append, List.nil_append]
    cases h : units rest <;> simp [units, escaped?, h]

theorem units_quote (cs : List Char) : ∃ found, joinUnits found = some cs ∧
    ∀ rest, units (cs.flatMap escape ++ '"' :: rest) = some (found, rest) := by
  induction cs with
  | nil => exact ⟨[], rfl, fun _ => rfl⟩
  | cons c cs ih =>
    obtain ⟨unit, hunits, hjoin⟩ := units_escape c
    obtain ⟨found, hfound, hrest⟩ := ih
    refine ⟨unit :: found, by rw [hjoin, hfound]; rfl, fun rest => ?_⟩
    rw [List.flatMap_cons, List.append_assoc, hunits, hrest]
    rfl

theorem reads_quote (cs : List Char) :
    Reader.Reads quoted (quote cs) (some (String.ofList cs)) := by
  obtain ⟨found, hfound, hunits⟩ := units_quote cs
  intro rest
  rw [quote, List.cons_append, List.append_assoc, List.singleton_append, quoted, hunits]
  simp [hfound]

/-! White space -/

def Blank (cs : List Char) : Prop := ∀ c ∈ cs, isSpace c = true

structure Layout.Spaced (layout : Layout) : Prop where
  lineBreak : ∀ depth, Blank (layout.lineBreak depth)
  colon : ∃ gap, Blank gap ∧ layout.colon = ':' :: gap

theorem Layout.spaced_pretty : Layout.pretty.Spaced where
  lineBreak depth := by
    intro c hc
    rcases List.mem_cons.mp hc with rfl | hc
    · rfl
    · rw [List.eq_of_mem_replicate hc]
      rfl
  colon := ⟨[' '], by simp [Blank, isSpace], rfl⟩

theorem skipSpace_append {gap : List Char} (h : Blank gap) (cs : List Char) :
    skipSpace (gap ++ cs) = skipSpace cs :=
  List.dropWhile_append_of_pos h

theorem skipSpace_cons {c : Char} (h : isSpace c = false) (cs : List Char) :
    skipSpace (c :: cs) = c :: cs := by
  rw [skipSpace, List.dropWhile_cons_of_neg (by simp [h])]

/-- The reader skips white space. -/
def Skips {α : Type} (r : Reader α) : Prop :=
  ∀ gap cs, Blank gap → r (gap ++ cs) = r cs

theorem skips_value (limit depth : Nat) : Skips (value limit depth) := by
  intro gap cs hgap
  cases depth with
  | zero => rfl
  | succ depth => simp only [value, skipSpace_append hgap]

theorem skips_field (r : Reader Datum) : Skips (field r) := by
  intro gap cs hgap
  simp only [field, skipSpace_append hgap]

/-! Lengths -/

theorem count_le_intercalate (c : Char) (gap : List Char) (pieces : List (List Char)) :
    pieces.length ≤ ((c :: gap).intercalate pieces).length + 1 := by
  induction pieces with
  | nil => simp
  | cons piece rest ih =>
    cases rest with
    | nil => simp
    | cons next rest =>
      rw [List.intercalate_cons_of_ne_nil (by simp)]
      simp only [List.length_append, List.length_cons] at ih ⊢
      omega

theorem length_le_intercalate (sep : List Char) {pieces : List (List Char)} {piece : List Char}
    (h : piece ∈ pieces) : piece.length ≤ (sep.intercalate pieces).length := by
  induction pieces with
  | nil => cases h
  | cons first rest ih =>
    cases rest with
    | nil => simp [List.mem_singleton.mp h]
    | cons next rest =>
      rw [List.intercalate_cons_of_ne_nil (by simp), List.length_append, List.length_append]
      rcases List.mem_cons.mp h with rfl | h
      · omega
      · have hrest := ih h
        omega

section

variable (layout : Layout) (depth : Nat) (left right : Char)

theorem count_lt_enclose (pieces : List (List Char)) :
    pieces.length < (enclose layout depth left right pieces).length := by
  cases pieces with
  | nil => simp [enclose]
  | cons piece pieces =>
    have h := count_le_intercalate ',' (layout.lineBreak (depth + 1)) (piece :: pieces)
    simp only [enclose, List.length_cons, List.length_append, List.length_nil] at h ⊢
    omega

theorem length_lt_enclose {pieces : List (List Char)} {piece : List Char} (h : piece ∈ pieces) :
    piece.length < (enclose layout depth left right pieces).length := by
  cases pieces with
  | nil => cases h
  | cons first pieces =>
    have hpiece := length_le_intercalate (',' :: layout.lineBreak (depth + 1)) h
    simp only [enclose, List.length_cons, List.length_append, List.length_nil]
    omega

end

/-! Pieces between brackets -/

def IsClosing (c : Char) : Prop := c = ']' ∨ c = '}'

/-- The piece begins with something, and not like the end of a list. -/
def Opens (piece : List Char) : Prop :=
  ∃ c cs, piece = c :: cs ∧ isSpace c = false ∧ ¬ IsClosing c

theorem Opens.append {piece : List Char} (h : Opens piece) (more : List Char) :
    Opens (piece ++ more) := by
  obtain ⟨c, cs, rfl, hc⟩ := h
  exact ⟨c, cs ++ more, rfl, hc⟩

theorem Opens.intercalate {piece : List Char} (h : Opens piece) (sep : List Char)
    (pieces : List (List Char)) : Opens (sep.intercalate (piece :: pieces)) := by
  cases pieces with
  | nil => rwa [List.intercalate_singleton]
  | cons next rest =>
    rw [List.intercalate_cons_of_ne_nil (by simp), List.append_assoc]
    exact h.append _

section

variable {α : Type} {close : Char} {item : Reader α} {gap last : List Char}
  {pieces : List (List Char)} {as : List α}

theorem skipSpace_closing (hclose : IsClosing close) (hlast : Blank last) (rest : List Char) :
    skipSpace (last ++ close :: rest) = close :: rest := by
  rw [skipSpace_append hlast, skipSpace_cons]
  rcases hclose with rfl | rfl <;> rfl

theorem items1_last (hclose : IsClosing close) (hlast : Blank last) {piece : List Char} {a : α}
    (h : item.Reads piece a) (limit : Nat) (rest : List Char) :
    items1 close item (limit + 1) (piece ++ (last ++ close :: rest)) = some ([a], rest) := by
  simp [items1, h _, skipSpace_closing hclose hlast]

theorem items1_comma (hclose : IsClosing close) {piece : List Char} {a : α}
    (h : item.Reads piece a) (limit : Nat) (cs : List Char) :
    items1 close item (limit + 1) (piece ++ ',' :: cs) =
      (items1 close item limit cs).map fun (later, rest) => (a :: later, rest) := by
  have hcomma : ',' ≠ close := by rcases hclose with rfl | rfl <;> decide
  simp only [items1, h _, Option.bind_eq_bind, Option.bind_some,
    skipSpace_cons (show isSpace ',' = false from rfl), if_neg hcomma, if_pos]
  cases items1 close item limit cs <;> rfl

theorem skips_items1 (hskip : Skips item) (limit : Nat) : Skips (items1 close item limit) := by
  intro gap cs hgap
  cases limit with
  | zero => rfl
  | succ limit => simp only [items1, hskip gap cs hgap]

theorem items1_intercalate (hclose : IsClosing close) (hskip : Skips item) (hgap : Blank gap)
    (hlast : Blank last) (h : List.Forall₂ item.Reads pieces as) (hne : pieces ≠ []) {limit : Nat}
    (hlimit : pieces.length ≤ limit) (rest : List Char) :
    items1 close item limit ((',' :: gap).intercalate pieces ++ (last ++ close :: rest)) =
      some (as, rest) := by
  induction h generalizing limit with
  | nil => exact absurd rfl hne
  | cons hpiece htail ih =>
    obtain ⟨limit, rfl⟩ := Nat.exists_eq_add_one_of_ne_zero (Nat.ne_zero_of_lt hlimit)
    cases htail with
    | nil =>
      rw [List.intercalate_singleton]
      exact items1_last hclose hlast hpiece limit rest
    | cons hnext hmore =>
      rw [List.intercalate_cons_of_ne_nil (by simp), List.append_assoc, List.append_assoc,
        List.cons_append, items1_comma hclose hpiece, skips_items1 hskip limit _ _ hgap,
        ih (by simp) (Nat.le_of_succ_le_succ hlimit)]
      rfl

theorem items_of_opens (hclose : IsClosing close) (hgap : Blank gap) {cs : List Char}
    (h : Opens cs) (limit : Nat) :
    items close item limit (gap ++ cs) = items1 close item limit (gap ++ cs) := by
  obtain ⟨c, rest, rfl, hspace, hc⟩ := h
  have hne : c ≠ close := by
    rintro rfl
    exact hc hclose
  simp only [items, skipSpace_append hgap, skipSpace_cons hspace, if_neg hne]

/-- What stands behind the opening bracket is read as the items of the pieces. -/
theorem reads_enclose {layout : Layout} (hlayout : layout.Spaced) (hclose : IsClosing close)
    (hskip : Skips item) {β : Type} {xs : List β} {piece : β → List Char} {f : β → α}
    (hpieces : ∀ x ∈ xs, Opens (piece x) ∧ item.Reads (piece x) (f x)) {limit depth : Nat}
    {left : Char} (hlimit : (enclose layout depth left close (xs.map piece)).length < limit) :
    ∃ tail, enclose layout depth left close (xs.map piece) = left :: tail ∧
      Reader.Reads (items close item limit) tail (xs.map f) := by
  have hcount := count_lt_enclose layout depth left close (xs.map piece)
  cases xs with
  | nil =>
    refine ⟨[close], rfl, fun rest => ?_⟩
    have hspace : skipSpace (close :: rest) = close :: rest :=
      skipSpace_closing hclose (List.forall_mem_nil _) rest
    simp only [List.singleton_append, items, hspace, if_pos, List.map_nil]
  | cons x xs =>
    refine ⟨_, rfl, fun rest => ?_⟩
    have hgap := hlayout.lineBreak (depth + 1)
    have hopens := (hpieces x (by simp)).1.intercalate (',' :: layout.lineBreak (depth + 1))
      (xs.map piece)
    have hreads : List.Forall₂ item.Reads ((x :: xs).map piece) ((x :: xs).map f) :=
      List.forall₂_map_left_iff.mpr (List.forall₂_map_right_iff.mpr
        (List.forall₂_same.mpr fun x hx => (hpieces x hx).2))
    simp only [List.append_assoc]
    rw [items_of_opens hclose hgap (hopens.append _), skips_items1 hskip limit _ _ hgap]
    exact items1_intercalate hclose hskip hgap (hlayout.lineBreak depth) hreads (by simp)
      (by omega) rest

end

/-! Values -/

section

variable {layout : Layout}

theorem printItems_eq (depth : Nat) (items : List Datum) :
    printItems layout depth items = items.map (print layout depth) := by
  induction items with
  | nil => rfl
  | cons item rest ih => rw [printItems, ih, List.map_cons]

def printField (layout : Layout) (depth : Nat) (field : String × Datum) : List Char :=
  quote field.1.toList ++ layout.colon ++ print layout depth field.2

theorem printFields_eq (depth : Nat) (fields : List (String × Datum)) :
    printFields layout depth fields = fields.map (printField layout depth) := by
  induction fields with
  | nil => rfl
  | cons field rest ih => rw [printFields, ih, List.map_cons, printField]

theorem opens_quote (cs : List Char) : Opens (quote cs) :=
  ⟨'"', _, rfl, rfl, by simp [IsClosing]⟩

theorem opens_print {d : Datum} (hd : d.Plain) (depth : Nat) : Opens (print layout depth d) := by
  cases hd with
  | null => exact ⟨'n', _, rfl, rfl, by simp [IsClosing]⟩
  | text value => exact opens_quote value.toList
  | list h =>
    rw [print]
    cases printItems layout (depth + 1) _ <;> exact ⟨'[', _, rfl, rfl, by simp [IsClosing]⟩
  | record h =>
    rw [print]
    cases printFields layout (depth + 1) _ <;> exact ⟨'{', _, rfl, rfl, by simp [IsClosing]⟩

theorem reads_field (hlayout : layout.Spaced) {limit bound depth : Nat} {field : String × Datum}
    (h : Reader.Reads (value limit bound) (print layout depth field.2) field.2) :
    Reader.Reads (Json.field (value limit bound)) (printField layout depth field)
      (some field.1, field.2) := by
  obtain ⟨gap, hgap, hcolon⟩ := hlayout.colon
  intro rest
  have hname : ∀ cs, quoted (skipSpace (quote field.1.toList ++ cs)) = some (some field.1, cs) := by
    intro cs
    rw [quote, List.cons_append, skipSpace_cons rfl, ← List.cons_append, ← quote, reads_quote,
      String.ofList_toList]
  rw [printField, hcolon, List.append_assoc, List.append_assoc, Json.field]
  simp only [hname, Option.bind_eq_bind, Option.bind_some, List.cons_append,
    skipSpace_cons (show isSpace ':' = false from rfl), skips_value limit bound gap _ hgap, h rest]

theorem recordOf_named (fields : List (String × Datum)) :
    recordOf (fields.map fun field => (some field.1, field.2)) = .record fields := by
  have hmapM : fields.mapM some = some fields := by
    induction fields with
    | nil => rfl
    | cons field rest ih => simp [ih]
  simp [recordOf, List.mapM_map, Function.comp_def, hmapM]

/-- The bounds need to cover the length of what was printed. -/
theorem reads_print (hlayout : layout.Spaced) {d : Datum} (hd : d.Plain) {limit bound depth : Nat}
    (hlimit : (print layout depth d).length < limit)
    (hbound : (print layout depth d).length ≤ bound) :
    Reader.Reads (value limit (bound + 1)) (print layout depth d) d := by
  induction hd generalizing bound depth with
  | null => exact fun rest => rfl
  | text value =>
    intro rest
    have hquote := reads_quote value.toList rest
    rw [String.ofList_toList, quote, List.cons_append] at hquote
    rw [print, quote, List.cons_append, Json.value]
    simp only [skipSpace_cons (show isSpace '"' = false from rfl), hquote]
    rfl
  | @list items h ih =>
    rw [print, printItems_eq] at hlimit hbound ⊢
    have hitems : ∀ item ∈ items, Opens (print layout (depth + 1) item) ∧
        Reader.Reads (value limit bound) (print layout (depth + 1) item) (id item) := by
      intro item hitem
      have hlength := length_lt_enclose layout depth '[' ']'
        (List.mem_map_of_mem (f := print layout (depth + 1)) hitem)
      obtain ⟨bound, rfl⟩ : ∃ less, bound = less + 1 := ⟨bound - 1, by omega⟩
      exact ⟨opens_print (h item hitem) _, ih item hitem (by omega) (by omega)⟩
    obtain ⟨tail, hprint, htail⟩ :=
      reads_enclose hlayout (.inl rfl) (skips_value limit bound) hitems hlimit
    intro rest
    rw [hprint, List.cons_append, Json.value]
    simp only [skipSpace_cons (show isSpace '[' = false from rfl), htail rest, List.map_id]
    rfl
  | @record fields h ih =>
    rw [print, printFields_eq] at hlimit hbound ⊢
    have hfields : ∀ field ∈ fields, Opens (printField layout (depth + 1) field) ∧
        Reader.Reads (Json.field (value limit bound)) (printField layout (depth + 1) field)
          (some field.1, field.2) := by
      intro field hfield
      have hlength := length_lt_enclose layout depth '{' '}'
        (List.mem_map_of_mem (f := printField layout (depth + 1)) hfield)
      have hvalue : (print layout (depth + 1) field.2).length ≤
          (printField layout (depth + 1) field).length := by
        simp only [printField, List.length_append]
        omega
      obtain ⟨bound, rfl⟩ : ∃ less, bound = less + 1 := ⟨bound - 1, by omega⟩
      exact ⟨((opens_quote field.1.toList).append _).append _,
        reads_field hlayout (ih field hfield (by omega) (by omega))⟩
    obtain ⟨tail, hprint, htail⟩ :=
      reads_enclose hlayout (.inr rfl) (skips_field (value limit bound)) hfields hlimit
    intro rest
    rw [hprint, List.cons_append, Json.value]
    simp only [skipSpace_cons (show isSpace '{' = false from rfl), htail rest]
    rw [← recordOf_named fields]
    rfl

end

theorem parse?_print {layout : Layout} (hlayout : layout.Spaced) {d : Datum} (hd : d.Plain) :
    parse? (String.ofList (print layout 0 d)) = some d := by
  have hread : value _ _ (print layout 0 d ++ []) = some (d, []) :=
    reads_print hlayout hd (Nat.lt_succ_self _) (Nat.le_refl _) []
  rw [List.append_nil] at hread
  simp only [parse?, String.toList_ofList, hread]
  rfl

theorem parse?_pretty {d : Datum} (hd : d.Plain) : parse? (pretty d) = some d :=
  parse?_print Layout.spaced_pretty hd

end Json

end LicenseNotice
