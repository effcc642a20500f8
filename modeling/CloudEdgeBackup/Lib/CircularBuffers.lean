/-
  Circular buffers: a piece of memory of which `size` cells are in use, `len` of
  them from `pos` on, and after the last cell comes the first one.

  * `wrap` is the cell behind the end brought back to the start, `cells` are the
    cells from a position on, `Buf.contents` those the buffer holds;
  * `store` copies a string in, in two pieces where it goes past the end; it leaves
    every other cell alone (`cells_store_other`);
  * `Buf.push`, `Buf.pop` add a string behind the contents and take one off their
    front; `Buf.shorten` gives up the cells behind the contents, `Buf.lengthen` takes
    more cells in while the contents start at the first cell.
-/
import CloudEdgeBackup.Lib.Bytes

namespace Circular

open Zext

variable {α : Type*} [Zero α]

/-! ## Cells -/

/-- A position that may lie behind the end of `size` cells. -/
def wrap (size p : ℕ) : ℕ := if p < size then p else p - size

/-- The `n` cells from `o` on. -/
def cells (mem : List α) (size o n : ℕ) : List α :=
  (List.range n).map fun i => zget mem (wrap size (o + i))

variable {mem bs : List α} {size o p k m n i j : ℕ}

theorem wrap_of_lt (h : p < size) : wrap size p = p := if_pos h

theorem wrap_of_le (h : size ≤ p) : wrap size p = p - size := if_neg (not_lt.2 h)

@[simp] theorem wrap_self (size : ℕ) : wrap size size = 0 := by simp [wrap]

theorem wrap_lt (h : p < 2 * size) : wrap size p < size := by
  unfold wrap
  split_ifs <;> omega

theorem wrap_wrap_add (h : o + k < 2 * size) : wrap size (wrap size o + k) = wrap size (o + k) := by
  unfold wrap
  split_ifs <;> omega

/-- Cells at different distances are different ones. -/
theorem wrap_ne (hik : i < k) (hk : k < size) :
    wrap size (o + i) ≠ wrap size (o + k) := by
  unfold wrap
  split_ifs <;> omega

@[simp] theorem cells_length (mem : List α) (size o n : ℕ) : (cells mem size o n).length = n := by
  simp [cells]

@[simp] theorem cells_zero (mem : List α) (size o : ℕ) : cells mem size o 0 = [] := rfl

theorem zget_cells (h : i < n) : zget (cells mem size o n) i = zget mem (wrap size (o + i)) := by
  rw [zget_of_lt (by simpa using h)]
  simp [cells]

theorem cells_congr {mem' : List α} {size' o' : ℕ}
    (h : ∀ i < n, zget mem (wrap size (o + i)) = zget mem' (wrap size' (o' + i))) :
    cells mem size o n = cells mem' size' o' n :=
  List.map_congr_left fun i hi => h i (List.mem_range.1 hi)

/-- A string that reads like the cells is the cells. -/
theorem eq_cells {l : List α} (hl : l.length = n)
    (h : ∀ i < n, zget l i = zget mem (wrap size (o + i))) : l = cells mem size o n := by
  refine ext_zget (by simp [hl]) fun i hi => ?_
  rw [zget_cells (by omega), h i (by omega)]

theorem cells_add (h : o + (m + n) ≤ 2 * size) :
    cells mem size o (m + n) = cells mem size o m ++ cells mem size (wrap size (o + m)) n := by
  refine ext_zget (by simp) fun i hi => ?_
  rw [cells_length] at hi
  rw [zget_cells hi, zget_append, cells_length]
  split_ifs with him
  · rw [zget_cells him]
  · rw [zget_cells (by omega), wrap_wrap_add (by omega)]
    congr 2
    omega

theorem take_cells (h : o + n ≤ 2 * size) (hm : m ≤ n) :
    (cells mem size o n).take m = cells mem size o m := by
  obtain ⟨k, rfl⟩ := Nat.exists_eq_add_of_le hm
  rw [cells_add h, List.take_left' (cells_length ..)]

theorem drop_cells (h : o + n ≤ 2 * size) (hm : m ≤ n) :
    (cells mem size o n).drop m = cells mem size (wrap size (o + m)) (n - m) := by
  obtain ⟨k, rfl⟩ := Nat.exists_eq_add_of_le hm
  rw [cells_add h, List.drop_left' (cells_length ..), Nat.add_sub_cancel_left]

/-- Cells that do not go past the end are a slice of the memory. -/
theorem cells_eq_zslice (h : o + n ≤ size) : cells mem size o n = zslice mem o n := by
  refine List.map_congr_left fun i hi => ?_
  rw [List.mem_range] at hi
  rw [wrap_of_lt (by omega)]

/-- Cells before the end of both sizes are the same ones. -/
theorem cells_resize {size' : ℕ} (h : o + n ≤ size) (h' : o + n ≤ size') :
    cells mem size o n = cells mem size' o n := by
  rw [cells_eq_zslice h, cells_eq_zslice h']

/-! ## Copying in -/

/-- `bs` copied into the cells from `p` on. -/
def store (mem : List α) (size p : ℕ) (bs : List α) : List α :=
  if size - p < bs.length then
    overwrite (overwrite mem p (bs.take (size - p))) 0 (bs.drop (size - p))
  else overwrite mem p bs

theorem zget_store (hp : p < size) (hbs : bs.length ≤ size) (hj : j < bs.length) :
    zget (store mem size p bs) (wrap size (p + j)) = zget bs j := by
  unfold store wrap
  split_ifs with hsplit hwrap hwrap
  · rw [zget_overwrite, if_neg (by simp only [List.length_drop]; omega), zget_overwrite,
      if_pos (by simp only [List.length_take]; omega), Nat.add_sub_cancel_left,
      zget_take (by omega)]
  · rw [zget_overwrite, if_pos (by simp only [List.length_drop]; omega), zget_drop]
    congr 1
    omega
  · rw [zget_overwrite, if_pos (by omega), Nat.add_sub_cancel_left]
  · omega

/-- A copy changes the cells it goes to, and no others. -/
theorem zget_store_other (hp : p < size) {x : ℕ}
    (hx : ∀ j < bs.length, x ≠ wrap size (p + j)) : zget (store mem size p bs) x = zget mem x := by
  have hnot : ∀ y, x = y → p ≤ y → y < p + bs.length → y < size → False := by
    intro y hxy hlo hhi hy
    refine hx (y - p) (by omega) ?_
    rw [wrap_of_lt (by omega)]
    omega
  unfold store
  split_ifs with hsplit
  · have hstart : ¬ x < bs.length - (size - p) := by
      intro hlt
      refine hx (x + (size - p)) (by omega) ?_
      rw [wrap_of_le (by omega)]
      omega
    rw [zget_overwrite, if_neg (by simp only [List.length_drop]; omega), zget_overwrite, if_neg]
    rintro ⟨hlo, hhi⟩
    rw [List.length_take] at hhi
    exact hnot x rfl hlo (by omega) (by omega)
  · rw [zget_overwrite, if_neg]
    rintro ⟨hlo, hhi⟩
    exact hnot x rfl hlo hhi (by omega)

@[simp] theorem cells_store_self (hp : p < size) (hbs : bs.length ≤ size) :
    cells (store mem size p bs) size p bs.length = bs := by
  refine (eq_cells rfl fun j hj => ?_).symm
  rw [zget_store hp hbs hj]

/-- **A copy leaves the cells before it alone**: those from `o` on, when it starts `k` cells
    after `o` and does not come round to them. -/
theorem cells_store_other (ho : o < size) (hn : n ≤ k) (hk : k + bs.length ≤ size) :
    cells (store mem size (wrap size (o + k)) bs) size o n = cells mem size o n := by
  refine cells_congr fun i hi => ?_
  rcases Nat.eq_zero_or_pos bs.length with hnil | hpos
  · rw [List.length_eq_zero_iff.1 hnil, store, if_neg (by simp), zget_overwrite,
      if_neg (by simp only [List.length_nil]; omega)]
  · refine zget_store_other (wrap_lt (by omega)) fun j hj => ?_
    rw [wrap_wrap_add (by omega), Nat.add_assoc]
    exact wrap_ne (by omega) (by omega)

theorem store_length (hp : p < size) (hbs : bs.length ≤ size) (hsize : size ≤ mem.length) :
    (store mem size p bs).length = mem.length := by
  unfold store
  split_ifs with hsplit
  · rw [overwrite_length, overwrite_length, List.length_take, List.length_drop]
    omega
  · rw [overwrite_length]
    omega

theorem store_eq_overwrite (h : p + bs.length ≤ size) : store mem size p bs = overwrite mem p bs :=
  if_neg (by omega)

/-! ## Buffers -/

/-- A circular buffer: `len` of the `size` cells of `buf` are taken, from `pos` on. -/
structure Buf (α : Type*) where
  buf : List α
  pos : ℕ
  len : ℕ
  size : ℕ

namespace Buf

/-- What the buffer holds. -/
def contents (b : Buf α) : List α := cells b.buf b.size b.pos b.len

/-- The cell behind the contents. -/
def tail (b : Buf α) : ℕ := wrap b.size (b.pos + b.len)

/-- `bs` added behind the contents. -/
def push (b : Buf α) (bs : List α) : Buf α :=
  { b with buf := store b.buf b.size b.tail bs, len := b.len + bs.length }

/-- `n` cells taken off the front. -/
def pop (b : Buf α) (n : ℕ) : Buf α := { b with pos := wrap b.size (b.pos + n), len := b.len - n }

/-- The buffer without the cells behind its contents. -/
def shorten (b : Buf α) : Buf α := { b with size := b.pos + b.len }

/-- The buffer with `size` cells. -/
def lengthen (b : Buf α) (size : ℕ) : Buf α := { b with size := size }

/-- The contents fit into the cells, and these into the memory. -/
structure Ok (b : Buf α) : Prop where
  pos_lt : b.pos < b.size
  len_le : b.len ≤ b.size
  size_le : b.size ≤ b.buf.length

variable {b : Buf α}

@[simp] theorem contents_length (b : Buf α) : b.contents.length = b.len := cells_length ..

theorem contents_push (hb : b.Ok) (h : b.len + bs.length ≤ b.size) :
    (b.push bs).contents = b.contents ++ bs := by
  have hpos := hb.pos_lt
  change cells (store b.buf b.size b.tail bs) b.size b.pos (b.len + bs.length) = _
  rw [cells_add (by omega), tail, cells_store_other hb.pos_lt le_rfl h,
    cells_store_self (wrap_lt (by omega)) (by omega)]
  rfl

theorem Ok.push (hb : b.Ok) (h : b.len + bs.length ≤ b.size) : (b.push bs).Ok where
  pos_lt := hb.pos_lt
  len_le := h
  size_le := by
    have hpos := hb.pos_lt
    have hlen := hb.len_le
    have hstore : (store b.buf b.size b.tail bs).length = b.buf.length :=
      store_length (wrap_lt (by omega)) (by omega) hb.size_le
    exact hb.size_le.trans hstore.ge

theorem contents_pop (hb : b.Ok) (h : n ≤ b.len) : (b.pop n).contents = b.contents.drop n := by
  have hpos := hb.pos_lt
  have hlen := hb.len_le
  change cells b.buf b.size (wrap b.size (b.pos + n)) (b.len - n) = _
  rw [← drop_cells (by omega) h]
  rfl

omit [Zero α] in
theorem Ok.pop (hb : b.Ok) (h : n ≤ b.len) : (b.pop n).Ok where
  pos_lt := by
    have hpos := hb.pos_lt
    have hlen := hb.len_le
    have hlt : b.pos + n < 2 * b.size := by omega
    exact wrap_lt hlt
  len_le := (Nat.sub_le ..).trans hb.len_le
  size_le := hb.size_le

theorem contents_shorten (h : b.pos + b.len ≤ b.size) : b.shorten.contents = b.contents :=
  cells_resize le_rfl h

theorem contents_lengthen (h : b.pos + b.len ≤ b.size) (hle : b.size ≤ size) :
    (b.lengthen size).contents = b.contents := cells_resize (h.trans hle) h

end Buf

end Circular
