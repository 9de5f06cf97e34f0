import WindOs.Data.RecordPtr
import WindOs.Mm.PageInit
import WindOs.Mm.DeleteMm

namespace WindOs.Mm

open Data

/-! # Pages and their addresses, in machine words

Elsewhere a page is its index in `pages`.  Here it is a pointer, and the four conversions
are computed as they are compiled: everything wraps at 2^32, and `page - pages` is a
difference of pointers to records of 24 bytes.
-/

/-- The globals `pages` and `pt_begin`. -/
structure PageArray where
  pages : BitVec 32
  ptBegin : BitVec 32

namespace PageArray

/-- `n + pages` -/
def plus (array : PageArray) (n : BitVec 32) : BitVec 32 :=
  n * BitVec.ofNat 32 sizeofPage + array.pages

/-- `(struct Page *)((u32)page + VERTUAL_MEM)`, which `alloc_page` returns. -/
def raised (page : BitVec 32) : BitVec 32 := page + BitVec.ofNat 32 vertualMem

/-- `page - pages`.  The size 24 is 8 times 3, and `0xAAAAAAAB` is the inverse of 3. -/
def minusPages (array : PageArray) (page : BitVec 32) : BitVec 32 :=
  recordDiff 3 0xAAAAAAAB#32 page array.pages

def pgToAddrLa (array : PageArray) (page : BitVec 32) : BitVec 32 :=
  array.minusPages page * BitVec.ofNat 32 pageSize + array.ptBegin + BitVec.ofNat 32 vertualMem

def pgToAddrPa (array : PageArray) (page : BitVec 32) : BitVec 32 :=
  array.minusPages page * BitVec.ofNat 32 pageSize + array.ptBegin

def laAddrToPg (array : PageArray) (addr : BitVec 32) : BitVec 32 :=
  array.plus ((addr - BitVec.ofNat 32 vertualMem - array.ptBegin) / BitVec.ofNat 32 pageSize)

def paAddrToPg (array : PageArray) (addr : BitVec 32) : BitVec 32 :=
  array.plus ((addr - array.ptBegin) / BitVec.ofNat 32 pageSize)

variable {array : PageArray} {page : BitVec 32} {k b : Nat}

/-- The two pointers to a page are `c = 0` and `c = -1`: raising a pointer lowers it by `2 ^ 30`. -/
theorem minusPages_scaled {c : Int} (small : k < maxPageNum) (either : c = 0 ∨ c = -1)
    (apart : page - array.pages = BitVec.ofInt 32 (2 ^ 3 * (3 * (k : Int) + 2 ^ 27 * c))) :
    array.minusPages page * BitVec.ofNat 32 pageSize = BitVec.ofNat 32 (pageSize * k) := by
  have bound : k < 30000 := small
  have unit : (3 : Int) * 0xAAAAAAAB ≡ 1 [ZMOD 2 ^ 32] := by decide
  have scaled := @recordDiff_scaled 32 3 page array.pages 3 0xAAAAAAAB k c 27 12 (by decide) unit
    (by decide) apart (by omega) (by omega)
  have offset : (k : Int) * 2 ^ 12 = ((pageSize * k : Nat) : Int) := by
    rw [Nat.cast_mul, Int.mul_comm]
    rfl
  rw [offset, BitVec.ofInt_natCast] at scaled
  exact scaled

theorem plus_eq : array.plus (BitVec.ofNat 32 k) = BitVec.ofInt 32 (24 * (k : Int)) + array.pages := by
  rw [plus, ← BitVec.ofInt_natCast, ← BitVec.ofInt_natCast, ← BitVec.ofInt_mul, Int.mul_comm]
  rfl

theorem plus_apart : array.plus (BitVec.ofNat 32 k) - array.pages =
    BitVec.ofInt 32 (2 ^ 3 * (3 * (k : Int) + 2 ^ 27 * 0)) := by
  rw [plus_eq, BitVec.add_sub_cancel]
  apply ofInt_congr
  rw [Int.ModEq]
  omega

theorem raised_apart : raised (array.plus (BitVec.ofNat 32 k)) - array.pages =
    BitVec.ofInt 32 (2 ^ 3 * (3 * (k : Int) + 2 ^ 27 * (-1))) := by
  rw [raised, plus_eq, BitVec.add_assoc, BitVec.add_comm array.pages, ← BitVec.add_assoc,
    BitVec.add_sub_cancel, ← BitVec.ofInt_natCast, ← BitVec.ofInt_add]
  apply ofInt_congr
  simp only [Int.ModEq, vertualMem]
  omega

/-- The address of the frame of page `k`. -/
def frame (array : PageArray) (k : Nat) : BitVec 32 :=
  array.ptBegin + BitVec.ofNat 32 (pageSize * k)

theorem pgToAddrPa_plus (small : k < maxPageNum) :
    array.pgToAddrPa (array.plus (BitVec.ofNat 32 k)) = array.frame k := by
  rw [pgToAddrPa, minusPages_scaled small (.inl rfl) plus_apart, BitVec.add_comm, frame]

theorem pgToAddrPa_raised (small : k < maxPageNum) :
    array.pgToAddrPa (raised (array.plus (BitVec.ofNat 32 k))) = array.frame k := by
  rw [pgToAddrPa, minusPages_scaled small (.inr rfl) raised_apart, BitVec.add_comm, frame]

theorem pgToAddrLa_eq : array.pgToAddrLa page = raised (array.pgToAddrPa page) := rfl

theorem size_word : pageSize % 2 ^ 32 = pageSize := by decide

theorem frame_index (small : k < maxPageNum) (inside : b < pageSize) :
    (BitVec.ofNat 32 (pageSize * k) + BitVec.ofNat 32 b) / BitVec.ofNat 32 pageSize =
      BitVec.ofNat 32 k := by
  apply BitVec.eq_of_toNat_eq
  simp only [BitVec.toNat_udiv, BitVec.toNat_add, BitVec.toNat_ofNat, size_word]
  simp only [pageSize, maxPageNum] at small inside ⊢
  omega

theorem paAddrToPg_frame (small : k < maxPageNum) (inside : b < pageSize) :
    array.paAddrToPg (array.frame k + BitVec.ofNat 32 b) = array.plus (BitVec.ofNat 32 k) := by
  have offset : array.frame k + BitVec.ofNat 32 b - array.ptBegin =
      BitVec.ofNat 32 (pageSize * k) + BitVec.ofNat 32 b := by
    rw [frame, BitVec.add_assoc, BitVec.add_comm, BitVec.add_sub_cancel]
  rw [paAddrToPg, offset, frame_index small inside]

theorem laAddrToPg_raised {addr : BitVec 32} :
    array.laAddrToPg (raised addr) = array.paAddrToPg addr := by
  rw [laAddrToPg, raised, BitVec.add_sub_cancel]
  rfl

/-- On the pool the conversions are inverse to each other, for both pointers to a page. -/
theorem page_conversions_inverse (array : PageArray) (k : Nat) (small : k < maxPageNum) :
    (∀ page, page = array.plus (BitVec.ofNat 32 k) ∨
        page = raised (array.plus (BitVec.ofNat 32 k)) →
      array.pgToAddrPa page = array.frame k ∧ array.pgToAddrLa page = raised (array.frame k)) ∧
      ∀ b < pageSize,
        array.paAddrToPg (array.frame k + BitVec.ofNat 32 b) = array.plus (BitVec.ofNat 32 k) ∧
        array.laAddrToPg (raised (array.frame k) + BitVec.ofNat 32 b) =
          array.plus (BitVec.ofNat 32 k) := by
  refine ⟨?_, ?_⟩
  · intro page either
    have physical : array.pgToAddrPa page = array.frame k := by
      cases either with
      | inl plain => rw [plain, pgToAddrPa_plus small]
      | inr lifted => rw [lifted, pgToAddrPa_raised small]
    exact ⟨physical, by rw [pgToAddrLa_eq, physical]⟩
  · intro b inside
    have page := @paAddrToPg_frame array k b small inside
    have moved : raised (array.frame k) + BitVec.ofNat 32 b =
        raised (array.frame k + BitVec.ofNat 32 b) := by
      rw [raised, raised, BitVec.add_assoc, BitVec.add_comm (BitVec.ofNat 32 vertualMem),
        ← BitVec.add_assoc]
    exact ⟨page, by rw [moved, laAddrToPg_raised, page]⟩

/-- The last page of the pool, by the pointer that `alloc_page` returns. -/
theorem page_conversions_inverse_last :
    29999 < maxPageNum ∧
      (⟨0x100000#32, 0x1AF000#32⟩ : PageArray).pgToAddrPa
          (raised ((⟨0x100000#32, 0x1AF000#32⟩ : PageArray).plus (BitVec.ofNat 32 29999))) =
        (⟨0x100000#32, 0x1AF000#32⟩ : PageArray).frame 29999 :=
  ⟨by decide, ((page_conversions_inverse _ 29999 (by decide)).1 _ (.inr rfl)).1⟩

/-- The difference alone is never the index of the page when the pointer is raised. -/
theorem minusPages_raised_ne (small : k < maxPageNum) :
    array.minusPages (raised (array.plus (BitVec.ofNat 32 k))) ≠ BitVec.ofNat 32 k := by
  have bound : k < 30000 := small
  have quotient := @sshiftRight_ofInt 32 3 (3 * (k : Int) + 2 ^ 27 * (-1)) (by decide) (by omega)
    (by omega)
  intro same
  rw [minusPages, recordDiff, raised_apart, quotient] at same
  have words := congrArg BitVec.toNat same
  rw [BitVec.toNat_mul, BitVec.toNat_ofInt, BitVec.toNat_ofNat, BitVec.toNat_ofNat] at words
  omega

def ofPool (pool : PagePool) : PageArray where
  pages := BitVec.ofNat 32 pool.pages
  ptBegin := BitVec.ofNat 32 pool.ptBegin

theorem pgToAddrPa_ofPool {pool : PagePool} (small : k < maxPageNum) :
    ((ofPool pool).pgToAddrPa ((ofPool pool).plus (BitVec.ofNat 32 k))).toNat =
      pool.pgToAddrPa k := by
  rw [pgToAddrPa_plus small]
  simp only [frame, ofPool, PagePool.pgToAddrPa, BitVec.toNat_add, BitVec.toNat_ofNat, pageSize]
  omega

/-- A page of `Paging` is the number of its frame. -/
def ofPaging (pages : BitVec 32) (pg : Paging) : PageArray where
  pages
  ptBegin := BitVec.ofNat 32 (pageSize * pg.base)

theorem ofPaging_ptBegin {pages : BitVec 32} {pg : Paging} :
    (ofPaging pages pg).ptBegin.toNat = pageSize * pg.base % 2 ^ 32 :=
  BitVec.toNat_ofNat ..

theorem pgToAddrLa_ofPaging {pages : BitVec 32} {pg : Paging} (small : k < maxPageNum) :
    ((ofPaging pages pg).pgToAddrLa
        (raised ((ofPaging pages pg).plus (BitVec.ofNat 32 k)))).toNat =
      Paging.pgToAddrLa (pg.base + k) := by
  rw [pgToAddrLa_eq, pgToAddrPa_raised small, raised, frame, Paging.pgToAddrLa, BitVec.toNat_add,
    BitVec.toNat_add, BitVec.toNat_ofNat, BitVec.toNat_ofNat, ofPaging_ptBegin]
  simp only [pageSize]
  omega

theorem laAddrToPg_ofPaging {pages addr : BitVec 32} {pg : Paging} :
    (ofPaging pages pg).laAddrToPg addr =
      (ofPaging pages pg).plus (BitVec.ofNat 32 (pg.laAddrToPg addr.toNat - pg.base)) := by
  have word := addr.isLt
  have offset : (addr - BitVec.ofNat 32 vertualMem - (ofPaging pages pg).ptBegin).toNat =
      (addr.toNat + (2 ^ 32 - (vertualMem + pageSize * pg.base) % 2 ^ 32)) % 2 ^ 32 := by
    rw [BitVec.toNat_sub, BitVec.toNat_sub, BitVec.toNat_ofNat, ofPaging_ptBegin]
    simp only [pageSize]
    omega
  have index : (addr - BitVec.ofNat 32 vertualMem - (ofPaging pages pg).ptBegin) /
      BitVec.ofNat 32 pageSize = BitVec.ofNat 32 (pg.laAddrToPg addr.toNat - pg.base) := by
    apply BitVec.eq_of_toNat_eq
    rw [BitVec.toNat_udiv, offset, BitVec.toNat_ofNat, BitVec.toNat_ofNat, Paging.laAddrToPg,
      Nat.add_sub_cancel_left, size_word]
    simp only [pageSize]
    omega
  rw [laAddrToPg, index]

end PageArray

end WindOs.Mm
