import StackAssembler.Output.Writing
import StackAssembler.Proofs.Files.Tree
import StackAssembler.Proofs.Program.Shape
import StackAssembler.Proofs.Source.Bytes
import StackAssembler.Proofs.Source.Lines
import StackAssembler.Proofs.Text.Numeral
import Mathlib.Data.List.Permutation

/-!
# Reading a symbol list back

The lines of a symbol list are in an order that depends on the entries of the table alone, so tables
with the same entries have one list, in whatever order the labels arrived.  In every line a space
ends the label, and behind the only equals sign stands the address.  So a line says which entry it
was written for, and the list says what the table holds.

## Main definitions

* `Symbols.Precedes`: the strict order of entries.
* `Symbols.readLine?`: the entry that a line is read as.
-/

namespace StackAssembler.Symbols

variable {table other : LabelTable}

/-! ## The order of entries -/

/-- An entry comes before another: by its address, or by its label if the addresses are equal.
Labels are ordered by their code points, one after the other. -/
def Precedes (a b : LabelName × Int) : Prop :=
  a.2 < b.2 ∨ a.2 = b.2 ∧ List.Lex (fun c d => c.toNat < d.toNat) a.1 b.1

theorem nameLe_cons_iff (c d : Char) (s t : LabelName) :
    nameLe (c :: s) (d :: t) = true ↔ c.toNat < d.toNat ∨ c = d ∧ nameLe s t = true := by
  rw [nameLe]
  split
  · next h => simp [h]
  · next h => simp [h]

theorem nameLe_trans {s t u : LabelName} (h : nameLe s t = true) (h' : nameLe t u = true) :
    nameLe s u = true := by
  induction s generalizing t u with
  | nil => rfl
  | cons c s ih =>
      cases t with
      | nil => cases h
      | cons d t =>
          cases u with
          | nil => cases h'
          | cons e u =>
              rw [nameLe_cons_iff] at h h' ⊢
              rcases h with h | ⟨rfl, h⟩
              · rcases h' with h' | ⟨rfl, -⟩
                · exact .inl (Nat.lt_trans h h')
                · exact .inl h
              · exact h'.imp_right fun ⟨he, h'⟩ => ⟨he, ih h h'⟩

theorem nameLe_total (s t : LabelName) : nameLe s t = true ∨ nameLe t s = true := by
  induction s generalizing t with
  | nil => exact .inl rfl
  | cons c s ih =>
      cases t with
      | nil => exact .inr rfl
      | cons d t =>
          rw [nameLe_cons_iff, nameLe_cons_iff]
          rcases Nat.lt_trichotomy c.toNat d.toNat with h | h | h
          · exact .inl (.inl h)
          · obtain rfl : c = d := Char.toNat_inj.1 h
            exact (ih t).imp (fun h => .inr ⟨rfl, h⟩) fun h => .inr ⟨rfl, h⟩
          · exact .inr (.inl h)

/-- Of different labels the one that comes first in the order is the smaller one. -/
theorem lex_of_nameLe {s t : LabelName} (h : nameLe s t = true) (hne : s ≠ t) :
    List.Lex (fun c d => c.toNat < d.toNat) s t := by
  induction s generalizing t with
  | nil =>
      cases t with
      | nil => exact absurd rfl hne
      | cons d t => exact .nil
  | cons c s ih =>
      cases t with
      | nil => cases h
      | cons d t =>
          rcases (nameLe_cons_iff ..).1 h with hlt | ⟨rfl, hle⟩
          · exact .rel hlt
          · exact .cons (ih hle fun he => hne (by rw [he]))

theorem nameLe_antisymm {s t : LabelName} (h : nameLe s t = true) (h' : nameLe t s = true) :
    s = t := by
  induction s generalizing t with
  | nil =>
      cases t with
      | nil => rfl
      | cons d t => cases h'
  | cons c s ih =>
      cases t with
      | nil => cases h
      | cons d t =>
          rw [nameLe_cons_iff] at h h'
          rcases h with h | ⟨rfl, h⟩
          · rcases h' with h' | ⟨rfl, -⟩
            · exact absurd h' (Nat.lt_asymm h)
            · exact absurd h (Nat.lt_irrefl _)
          · rcases h' with h' | ⟨-, h'⟩
            · exact absurd h' (Nat.lt_irrefl _)
            · rw [ih h h']

theorem entryLe_iff (a b : LabelName × Int) :
    entryLe a b = true ↔ a.2 < b.2 ∨ a.2 = b.2 ∧ nameLe a.1 b.1 = true := by
  simp [entryLe]

theorem entryLe_trans (a b c : LabelName × Int) (h : entryLe a b = true)
    (h' : entryLe b c = true) : entryLe a c = true := by
  rw [entryLe_iff] at h h' ⊢
  rcases h with h | ⟨he, h⟩
  · left
    rcases h' with h' | ⟨he', -⟩ <;> omega
  · rcases h' with h' | ⟨he', h'⟩
    · exact .inl (he ▸ h')
    · exact .inr ⟨he.trans he', nameLe_trans h h'⟩

theorem entryLe_total (a b : LabelName × Int) : (entryLe a b || entryLe b a) = true := by
  rw [Bool.or_eq_true, entryLe_iff, entryLe_iff]
  rcases Int.lt_trichotomy a.2 b.2 with h | h | h
  · exact .inl (.inl h)
  · exact (nameLe_total a.1 b.1).imp (fun hn => .inr ⟨h, hn⟩) fun hn => .inr ⟨h.symm, hn⟩
  · exact .inr (.inl h)

theorem entryLe_antisymm {a b : LabelName × Int} (h : entryLe a b = true)
    (h' : entryLe b a = true) : a = b := by
  rw [entryLe_iff] at h h'
  rcases h with h | ⟨he, h⟩
  · rcases h' with h' | ⟨he', -⟩ <;> omega
  · rcases h' with h' | ⟨-, h'⟩
    · omega
    · exact Prod.ext (nameLe_antisymm h h') he

/-! ## The entries of a list -/

/-- The entries of a table in the order of their lines. -/
def sorted (table : LabelTable) : List (LabelName × Int) := table.entries.mergeSort entryLe

theorem perm_sorted (table : LabelTable) : (sorted table).Perm table.entries :=
  List.mergeSort_perm table.entries entryLe

theorem pairwise_entryLe_sorted (table : LabelTable) :
    (sorted table).Pairwise fun a b => entryLe a b = true :=
  List.pairwise_mergeSort entryLe_trans entryLe_total table.entries

/-- **Each entry comes before all that have their lines below.** -/
theorem pairwise_sorted (table : LabelTable) : (sorted table).Pairwise Precedes := by
  have hnames : ((sorted table).map Prod.fst).Nodup :=
    ((perm_sorted table).map Prod.fst).nodup_iff.2 table.nodup
  refine ((pairwise_entryLe_sorted table).and (List.pairwise_map.1 hnames)).imp ?_
  rintro a b ⟨hle, hne⟩
  exact ((entryLe_iff a b).1 hle).imp_right fun ⟨he, hn⟩ => ⟨he, lex_of_nameLe hn hne⟩

theorem perm_of_mem_iff (h : ∀ entry, entry ∈ other.entries ↔ entry ∈ table.entries) :
    other.entries.Perm table.entries :=
  (List.perm_ext_iff_of_nodup (List.Nodup.of_map _ other.nodup)
    (List.Nodup.of_map _ table.nodup)).2 h

/-- The order in which labels arrived has no part in the order of the lines. -/
theorem sorted_eq_of_perm (h : other.entries.Perm table.entries) :
    sorted other = sorted table :=
  List.Perm.eq_of_pairwise (fun _ _ _ _ => entryLe_antisymm) (pairwise_entryLe_sorted other)
    (pairwise_entryLe_sorted table) ((perm_sorted other).trans (h.trans (perm_sorted table).symm))

/-! ## The width of labels -/

theorem width_le_iff (entries : List (LabelName × Int)) (n : Nat) :
    width entries ≤ n ↔ ∀ entry ∈ entries, entry.1.length ≤ n := by
  have hfold : ∀ start, entries.foldl (fun width entry => max width entry.1.length) start ≤ n ↔
      start ≤ n ∧ ∀ entry ∈ entries, entry.1.length ≤ n := by
    induction entries with
    | nil => simp
    | cons entry entries ih =>
        intro start
        rw [List.foldl_cons, ih, List.forall_mem_cons, Nat.max_le, and_assoc]
  rw [width, hfold]
  simp

theorem length_le_width {entries : List (LabelName × Int)} {entry : LabelName × Int}
    (h : entry ∈ entries) : entry.1.length ≤ width entries :=
  (width_le_iff entries _).1 (Nat.le_refl _) entry h

theorem width_eq_of_perm {entries others : List (LabelName × Int)} (h : others.Perm entries) :
    width others = width entries := by
  apply Nat.le_antisymm
  · exact (width_le_iff ..).2 fun entry hm => length_le_width (h.mem_iff.1 hm)
  · exact (width_le_iff ..).2 fun entry hm => length_le_width (h.mem_iff.2 hm)

/-! ## Lines -/

/-- The line of an entry without its newline. -/
def row (width : Nat) (entry : LabelName × Int) : List Char :=
  entry.1 ++ List.replicate (width - entry.1.length + 1) ' ' ++
    '=' :: ' ' :: Text.signedDecimal entry.2

theorem line_eq_row (width : Nat) (entry : LabelName × Int) :
    line width entry = row width entry ++ ['\n'] := by
  rw [line, row, List.rightpad, List.replicate_succ']
  simp

/-- A list is the lines of the entries in order, each with a newline after it. -/
theorem ofTable_eq_rows (table : LabelTable) :
    ofTable table =
      ((sorted table).map (row (width table.entries))).flatMap (· ++ ['\n']) := by
  have hline : line (width table.entries) =
      fun entry => row (width table.entries) entry ++ ['\n'] := funext (line_eq_row _)
  rw [ofTable, hline, List.flatMap_map]
  rfl

/-- The entry that a line is read as: the label ends at the first space, and the address stands
behind the equals sign and one more character. -/
def readLine? (line : List Char) : Option (LabelName × Int) :=
  let digits := (line.dropWhile (· != '=')).drop 2
  if digits ≠ [] ∧ digits.all Char.isDigit = true then
    some (line.takeWhile (· != ' '), Nat.ofDigitChars 10 digits 0)
  else none

/-- The entry of a label that a program can have, at an address that is not negative. -/
def IsListed (entry : LabelName × Int) : Prop := IsName entry.1 ∧ 0 ≤ entry.2

section Rows

variable {entry : LabelName × Int}

theorem IsListed.address (h : IsListed entry) :
    Text.signedDecimal entry.2 = Text.decimal entry.2.toNat := by
  obtain ⟨n, hn⟩ := Int.eq_ofNat_of_zero_le h.2
  rw [hn]
  rfl

/-- Neither a label nor what fills it up has an equals sign in it. -/
theorem IsListed.front (h : IsListed entry) (count : Nat) :
    '=' ∉ entry.1 ++ List.replicate count ' ' := by
  rw [List.mem_append, not_or]
  exact ⟨h.1.not_mem rfl, fun hm => absurd (List.eq_of_mem_replicate hm) (by decide)⟩

/-- **A line is read as the entry that it was written for.** -/
theorem readLine?_row (h : IsListed entry) (width : Nat) :
    readLine? (row width entry) = some entry := by
  have hname : (row width entry).takeWhile (· != ' ') = entry.1 := by
    have hspace : ' ' ∉ entry.1 := h.1.not_mem rfl
    rw [row, List.append_assoc, List.takeWhile_append_of_pos]
    · rw [List.replicate_succ, List.cons_append, List.takeWhile_cons_of_neg (by simp),
        List.append_nil]
    · intro c hc
      simpa using fun he : c = ' ' => hspace (he ▸ hc)
  have hdigits : ((row width entry).dropWhile (· != '=')).drop 2 = Text.decimal entry.2.toNat := by
    rw [row, List.dropWhile_append_of_pos, List.dropWhile_cons_of_neg (by simp), h.address]
    · rfl
    · intro c hc
      simpa using fun he : c = '=' => h.front _ (he ▸ hc)
  have hvalue : Nat.ofDigitChars 10 (Text.decimal entry.2.toNat) 0 = entry.2.toNat :=
    Nat.ofDigitChars_ten_toDigits
  have hall : Text.decimal entry.2.toNat ≠ [] ∧
      (Text.decimal entry.2.toNat).all Char.isDigit = true :=
    ⟨Text.decimal_ne_nil _, List.all_eq_true.2 fun _ => Text.isDigit_of_mem_decimal⟩
  simp only [readLine?, hname, hdigits, hvalue]
  rw [if_pos hall, Int.toNat_of_nonneg h.2]

/-- In every line the equals sign stands where it stands in the others, and nowhere else. -/
theorem getElem?_row_eq_iff (h : IsListed entry) {width : Nat} (hw : entry.1.length ≤ width)
    (i : Nat) : (row width entry)[i]? = some '=' ↔ i = width + 1 := by
  have hlength : (entry.1 ++ List.replicate (width - entry.1.length + 1) ' ').length =
      width + 1 := by
    rw [List.length_append, List.length_replicate]
    omega
  rw [row]
  rcases Nat.lt_trichotomy i (width + 1) with hi | rfl | hi
  · rw [List.getElem?_append_left (by omega)]
    exact iff_of_false (fun hget => h.front _ (List.mem_of_getElem? hget)) (by omega)
  · rw [List.getElem?_append_right (by omega), hlength, Nat.sub_self]
    exact iff_of_true rfl rfl
  · rw [List.getElem?_append_right (by omega), hlength]
    refine iff_of_false (fun hget => ?_) (by omega)
    obtain ⟨k, hk⟩ : ∃ k, i - (width + 1) = k + 1 := ⟨i - (width + 1) - 1, by omega⟩
    rw [hk, List.getElem?_cons_succ, h.address] at hget
    rcases List.mem_cons.1 (List.mem_of_getElem? hget) with hspace | hdigit
    · exact absurd hspace (by decide)
    · exact absurd (Text.isDigit_of_mem_decimal hdigit) (by decide)

/-- Lines are ASCII, without a newline. -/
theorem mem_row (h : IsListed entry) (width : Nat) :
    ∀ c ∈ row width entry, 0x20 ≤ c.toNat ∧ c.toNat < 0x80 := by
  intro c hc
  simp only [row, List.mem_append, List.mem_cons, h.address] at hc
  rcases hc with (hc | hc) | rfl | rfl | hc
  · rcases h.1.2 c hc with ⟨hlow, hhigh⟩ | rfl
    · have hlow' : 0x61 ≤ c.toNat := hlow
      have hhigh' : c.toNat ≤ 0x7a := hhigh
      omega
    · decide
  · rw [List.eq_of_mem_replicate hc]
    decide
  · decide
  · decide
  · have hrange : 0x30 ≤ c.toNat ∧ c.toNat ≤ 0x39 :=
      Char.isDigit_iff_toNat.1 (Text.isDigit_of_mem_decimal hc)
    omega

end Rows

/-! ## Lists -/

theorem ofTable_eq_of_perm (h : other.entries.Perm table.entries) :
    ofTable other = ofTable table := by
  rw [ofTable_eq_rows, ofTable_eq_rows, sorted_eq_of_perm h, width_eq_of_perm h]

theorem splitOn_ofTable (h : ∀ entry ∈ table.entries, IsListed entry) :
    (ofTable table).splitOn '\n' = (sorted table).map (row (width table.entries)) ++ [[]] := by
  rw [ofTable_eq_rows, splitOn_lines]
  intro line hm hnewline
  obtain ⟨entry, he, rfl⟩ := List.mem_map.1 hm
  have hlisted := h entry ((perm_sorted table).mem_iff.1 he)
  exact absurd (mem_row hlisted _ '\n' hnewline).1 (by decide)

theorem ascii_ofTable (h : ∀ entry ∈ table.entries, IsListed entry) :
    ∀ c ∈ ofTable table, c.toNat < 0x80 := by
  intro c hc
  rw [ofTable_eq_rows, List.flatMap_map, List.mem_flatMap] at hc
  obtain ⟨entry, he, hc⟩ := hc
  rcases List.mem_append.1 hc with hc | hc
  · exact (mem_row (h entry ((perm_sorted table).mem_iff.1 he)) _ c hc).2
  · rw [List.mem_singleton.1 hc]
    decide

/-- A symbol list that has been written is read as its characters. -/
theorem read_writeSymbols {tree : Tree} {path : String} {written : Written}
    (hascii : ∀ c ∈ ofTable table, c.toNat < 0x80)
    (h : tree.writeSymbols path table = .ok written) :
    written.tree.read (Path.ofString path).text =
      .ok ((ofTable table).map fun c => UInt8.ofNat c.toNat) := by
  rw [Tree.writeSymbols] at h
  cases hp : tree.put path (Encoding.Utf8.encode (ofTable table)) with
  | error failure => simp [hp, bind, Except.bind] at h
  | ok later =>
      simp only [hp, bind, Except.bind, pure, Except.pure, Except.ok.injEq] at h
      subst h
      rw [← Encoding.Utf8.encode_ascii hascii]
      exact Tree.read_of_put hp

end StackAssembler.Symbols
