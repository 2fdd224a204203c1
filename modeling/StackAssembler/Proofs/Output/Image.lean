import StackAssembler.Proofs.Machine.ByteOrder
import StackAssembler.Proofs.Output.Checked
import Mathlib.Data.List.SplitLengths
import Mathlib.Logic.ExistsUnique

/-!
# Reading an image back

An image has neither a header nor a mark, so what it means is settled by its groups of four bytes:
each is the number of a word.  The words of an image are read back from it, and every string of
bytes that has no part of a group left over is the image of just one list of words.  The byte order
is a matter of single groups: the two images of the same words have the same groups, reversed.

## Main definitions

* `Image.groups`: the groups of four bytes.
* `Image.words`: the words that the groups denote.
-/

namespace StackAssembler.Image

/-- Bytes in groups of the width of a word; bytes at the end that are fewer belong to none. -/
def groups (data : List UInt8) : List (List UInt8) :=
  (List.replicate (data.length / Word.width) Word.width).splitLengths data

/-- The words that the groups of bytes denote. -/
def words (order : ByteOrder) (data : List UInt8) : List Int :=
  (groups data).map fun group => (order.value group : Int)

/-! ## Groups -/

@[simp] theorem groups_nil : groups [] = [] := rfl

/-- A group at the front is the first one. -/
theorem groups_append {group : List UInt8} (h : group.length = Word.width) (rest : List UInt8) :
    groups (group ++ rest) = group :: groups rest := by
  have hcount : (group ++ rest).length / Word.width = rest.length / Word.width + 1 := by
    rw [List.length_append, h, Nat.add_comm, Nat.add_div_right _ (by decide)]
  rw [groups, hcount, List.replicate_succ, List.splitLengths_cons, List.take_left' h,
    List.drop_left' h, groups]

/-- Groups that are written one after the other are found again. -/
theorem groups_flatMap {α : Type} (write : α → List UInt8)
    (h : ∀ item, (write item).length = Word.width) (items : List α) :
    groups (items.flatMap write) = items.map write := by
  induction items with
  | nil => simp
  | cons item items ih => rw [List.flatMap_cons, groups_append (h item), ih, List.map_cons]

theorem length_of_mem_groups {data group : List UInt8} (h : group ∈ groups data) :
    group.length = Word.width := by
  have hsum : (List.replicate (data.length / Word.width) Word.width).sum ≤ data.length := by
    rw [List.sum_replicate_nat]
    exact Nat.div_mul_le_self ..
  have hlengths := List.map_splitLengths_length data _ hsum
  have hmem := List.mem_map_of_mem (f := List.length) h
  rw [groups, hlengths] at hmem
  exact List.eq_of_mem_replicate hmem

/-- If nothing is left over then the groups are all there is. -/
theorem flatten_groups {data : List UInt8} (h : Word.width ∣ data.length) :
    (groups data).flatten = data := by
  apply List.flatten_splitLengths
  rw [List.sum_replicate_nat, Nat.div_mul_cancel h]

/-! ## Words -/

@[simp] theorem length_bytes (order : ByteOrder) (word : Int) :
    (order.bytes Word.width word.toNat).length = Word.width := by
  simp [ByteOrder.bytes]

/-- A word is read back from its bytes. -/
theorem value_bytes_of_fits (order : ByteOrder) {word : Int} (h : Word.Fits word) :
    (order.value (order.bytes Word.width word.toNat) : Int) = word := by
  have hlt : word.toNat < 256 ^ Word.width := by
    simp only [Word.Fits, Word.max] at h
    simp only [Word.width]
    omega
  rw [ByteOrder.value_bytes, Nat.mod_eq_of_lt hlt]
  exact Int.toNat_of_nonneg h.1

/-- The words of an image are read back from it. -/
theorem words_flatMap_bytes (order : ByteOrder) {list : List Int}
    (h : ∀ word ∈ list, Word.Fits word) :
    words order (list.flatMap fun word => order.bytes Word.width word.toNat) = list := by
  have hread : ∀ word ∈ list,
      (order.value (order.bytes Word.width word.toNat) : Int) = id word :=
    fun word hm => value_bytes_of_fits order (h word hm)
  rw [words, groups_flatMap _ (length_bytes order), List.map_map]
  exact (List.map_congr_left hread).trans (List.map_id list)

theorem fits_of_mem_words {order : ByteOrder} {data : List UInt8} {word : Int}
    (h : word ∈ words order data) : Word.Fits word := by
  obtain ⟨group, hgroup, rfl⟩ := List.mem_map.1 h
  have hbytes := order.bytes_value group
  rw [length_of_mem_groups hgroup] at hbytes
  have hvalue := order.value_bytes Word.width (order.value group)
  rw [hbytes] at hvalue
  have hlt := Nat.mod_lt (order.value group) (by decide : 0 < 256 ^ Word.width)
  simp only [Word.width] at hlt hvalue
  simp only [Word.Fits, Word.max]
  omega

/-- What the groups of bytes denote is written as those bytes. -/
theorem flatMap_bytes_words (order : ByteOrder) {data : List UInt8}
    (h : Word.width ∣ data.length) :
    ((words order data).flatMap fun word => order.bytes Word.width word.toNat) = data := by
  have hwrite : ∀ group ∈ groups data,
      order.bytes Word.width (order.value group : Int).toNat = id group := by
    intro group hgroup
    rw [Int.toNat_natCast, ← length_of_mem_groups hgroup]
    exact order.bytes_value group
  rw [words, List.flatMap_map, List.flatMap, List.map_congr_left hwrite, List.map_id,
    flatten_groups h]

/-! ## Images -/

/-- A byte order is meant by its name. -/
@[simp] theorem ofWordsNamed_name (order : ByteOrder) (words : List Int) :
    ofWordsNamed order.name words = ofWords order words := by
  cases order <;> rfl

/-- **Bytes without a part of a group are the image of the words of their groups**, and of no other
words. -/
theorem ofWords_eq_ok_iff_words (order : ByteOrder) {data : List UInt8}
    (h : Word.width ∣ data.length) (list : List Int) :
    ofWords order list = .ok data ↔ list = words order data := by
  rw [ofWords_eq_ok_iff]
  constructor
  · rintro ⟨hfits, rfl⟩
    exact (words_flatMap_bytes order hfits).symm
  · rintro rfl
    exact ⟨fun word hm => fits_of_mem_words hm, (flatMap_bytes_words order h).symm⟩

theorem length_of_ofWords {order : ByteOrder} {list : List Int} {data : List UInt8}
    (h : ofWords order list = .ok data) : data.length = Word.width * list.length := by
  obtain ⟨-, rfl⟩ := (ofWords_eq_ok_iff ..).1 h
  exact Word.length_flatMap_of_forall fun word _ => length_bytes order word

/-- **The two images of the same words have the same groups, reversed.** -/
theorem ofWords_big (list : List Int) :
    ofWords .big list = (ofWords .little list).map fun data =>
      (groups data).flatMap List.reverse := by
  cases hlittle : ofWords .little list with
  | error failure =>
      exact (ofWords_eq_error_iff ..).2 ((ofWords_eq_error_iff ..).1 hlittle)
  | ok data =>
      obtain ⟨hfits, rfl⟩ := (ofWords_eq_ok_iff ..).1 hlittle
      refine (ofWords_eq_ok_iff ..).2 ⟨hfits, ?_⟩
      change (groups (list.flatMap fun word =>
        ByteOrder.little.bytes Word.width word.toNat)).flatMap List.reverse = _
      rw [groups_flatMap _ (length_bytes .little), List.flatMap_map]
      rfl

/-- **An image is a faithful encoding.**  Words are written if and only if all of them are words of
the machine, and a number that is none is reported; an image has four bytes for each word, and its
groups of four denote the words.  Bytes that can be cut into groups of four are the image of exactly
one list of words.  The big endian image is the little endian one with every group reversed. -/
theorem ofWordsNamed_faithful :
    (∀ (order : ByteOrder) (list : List Int),
      ((∃ word ∈ list, ¬ (0 ≤ word ∧ word ≤ 2 ^ 32 - 1)) ↔ ∃ word,
        ofWordsNamed order.name list = .error (.internal (.notAWord word))) ∧
      ((∀ word ∈ list, 0 ≤ word ∧ word ≤ 2 ^ 32 - 1) → ∃ data,
        ofWordsNamed order.name list = .ok data ∧ data.length = 4 * list.length ∧
        (groups data).map (fun group => (order.value group : Int)) = list)) ∧
    (∀ (order : ByteOrder) (data : List UInt8), 4 ∣ data.length →
      ∃! list, ofWordsNamed order.name list = .ok data) ∧
    ∀ list, ofWordsNamed "big" list = (ofWordsNamed "little" list).map fun data =>
      (groups data).flatMap List.reverse := by
  refine ⟨fun order list => ⟨?_, fun hfits => ?_⟩, fun order data hdata => ?_, ofWords_big⟩
  · rw [ofWordsNamed_name]
    calc (∃ word ∈ list, ¬ (0 ≤ word ∧ word ≤ 2 ^ 32 - 1))
        ↔ ∃ word ∈ list, ¬ Word.Fits word := by simp only [Word.fits_iff]
      _ ↔ ∃ word, Word.misfit? list = some word := (Word.exists_misfit?_iff list).symm
      _ ↔ ∃ word, ofWords order list = .error (.internal (.notAWord word)) := by
        simp [ofWords_eq_error_iff]
  · simp only [← Word.fits_iff] at hfits
    have hdata := (ofWords_eq_ok_iff order list _).2 ⟨hfits, rfl⟩
    refine ⟨_, (ofWordsNamed_name order list).trans hdata, length_of_ofWords hdata, ?_⟩
    exact words_flatMap_bytes order hfits
  · refine ⟨words order data, ?_, fun list hlist => ?_⟩
    · exact (ofWordsNamed_name order _).trans ((ofWords_eq_ok_iff_words order hdata _).2 rfl)
    · have hwritten := (ofWordsNamed_name order list).symm.trans hlist
      exact (ofWords_eq_ok_iff_words order hdata list).1 hwritten

/-- The largest word behind the least, big endian, and the only words with some image. -/
theorem ofWordsNamed_faithful_extremes :
    (∃ data, ofWordsNamed "big" [0, 2 ^ 32 - 1] = .ok data ∧
      (groups data).map (fun group => (ByteOrder.big.value group : Int)) = [0, 2 ^ 32 - 1]) ∧
    ∃! list, ofWordsNamed "little" list = .ok [0xff, 0, 0, 0, 0, 0, 0, 0x80] := by
  obtain ⟨hwritten, hread, -⟩ := ofWordsNamed_faithful
  obtain ⟨data, hdata, -, hgroups⟩ := (hwritten .big [0, 2 ^ 32 - 1]).2 (by decide)
  exact ⟨⟨data, hdata, hgroups⟩, hread .little _ (by decide)⟩

end StackAssembler.Image
