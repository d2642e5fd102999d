import Gopher.ListQueries
import Gopher.UserTable

/-!
# Pages of the user table

The rows that are not deleted come in one fixed order. Integers have 64 bits
and wrap around. A page number and a page size that are not positive stand
for the configured ones.
-/

set_option autoImplicit false

namespace Gopher.Pagination
open Gopher.ListQueries
open Gopher.UserTable (User Users createRow)

structure PaginateDto where
  curr : Int64
  limit : Int64
  deriving DecidableEq

structure Defaults where
  curr : Int64
  limit : Int64
  curr_one : curr = 1
  limit_pos : 0 < limit

def PaginateDto.getPage (conf : Defaults) (dto : PaginateDto) : Int64 × PaginateDto :=
  let dto := if dto.curr ≤ 0 then { dto with curr := conf.curr } else dto
  (dto.curr,dto)

def PaginateDto.getLimit (conf : Defaults) (dto : PaginateDto) : Int64 × PaginateDto :=
  let dto := if dto.limit ≤ 0 then { dto with limit := conf.limit } else dto
  (dto.limit,dto)

structure Query where
  offset : Int64
  limit : Int64

/-- The offset is computed before the limit gets its default. -/
def getPaginateFunc (conf : Defaults) (dto : PaginateDto) : Query × PaginateDto :=
  let paged := dto.getPage conf
  let offset := (paged.1-1)*paged.2.limit
  let limited := paged.2.getLimit conf
  ({ offset := offset, limit := limited.1 },limited.2)

def Query.fetch (query : Query) (rows : List User) : List User :=
  if query.limit < 0 then rows.drop query.offset.toInt.toNat
  else page query.offset.toInt.toNat query.limit.toInt.toNat rows

structure RowOrder (t : Users) where
  rows : List User
  perm : rows.Perm (t.rows.filter (fun user => !user.deleted))

theorem RowOrder.nodup {t : Users} (order : RowOrder t) : order.rows.Nodup :=
  order.perm.nodup_iff.mpr (t.rows_nodup.filter _)

structure Paginated where
  userArr : List User
  total : ℕ
  err : Option String
  deriving DecidableEq

def selectPaginatedUsers (conf : Defaults) (findFault countFault : Option String) {t : Users}
    (order : RowOrder t) (dto : PaginateDto) : Paginated × PaginateDto :=
  let built := getPaginateFunc conf dto
  match findFault with
  | some err => ({ userArr := [], total := 0, err := some err },built.2)
  | none =>
    let userArr := built.1.fetch order.rows
    match countFault with
    | some err => ({ userArr := userArr, total := 0, err := some err },built.2)
    | none =>
      let total := (Query.fetch { offset := -1, limit := -1 } order.rows).length
      ({ userArr := userArr, total := total, err := none },built.2)

/-! ## Effective values -/

def pageNumber (curr : Int64) : ℕ := if curr ≤ 0 then 1 else curr.toInt.toNat

def pageSize (conf : Defaults) (limit : Int64) : ℕ :=
  (if limit ≤ 0 then conf.limit else limit).toInt.toNat

def product (dto : PaginateDto) : ℤ := ((pageNumber dto.curr : ℤ)-1)*dto.limit.toInt

theorem pageNumber_pos (curr : Int64) : 0 < pageNumber curr := by
  unfold pageNumber
  split_ifs with h
  · exact Nat.one_pos
  · rw [Int64.le_iff_toInt_le, Int64.toInt_zero] at h
    omega

theorem limit_pos (conf : Defaults) (limit : Int64) :
    0 < (if limit ≤ 0 then conf.limit else limit).toInt := by
  split_ifs with h
  · have := conf.limit_pos
    rwa [Int64.lt_iff_toInt_lt, Int64.toInt_zero] at this
  · rw [Int64.le_iff_toInt_le, Int64.toInt_zero] at h
    omega

theorem pageSize_pos (conf : Defaults) (limit : Int64) : 0 < pageSize conf limit := by
  have := limit_pos conf limit
  unfold pageSize
  omega

theorem getPage_limit (conf : Defaults) (dto : PaginateDto) :
    (dto.getPage conf).2.limit = dto.limit := by
  unfold PaginateDto.getPage
  split_ifs <;> rfl

theorem offset_eq (conf : Defaults) (dto : PaginateDto) :
    (getPaginateFunc conf dto).1.offset.toInt = (product dto).bmod (2^64) := by
  have hpage : (dto.getPage conf).1.toInt = pageNumber dto.curr := by
    unfold PaginateDto.getPage pageNumber
    split_ifs with h
    · simp [conf.curr_one]
    · rw [Int64.le_iff_toInt_le, Int64.toInt_zero] at h
      dsimp only
      omega
  simp only [getPaginateFunc]
  rw [Int64.toInt_mul, Int64.toInt_sub, hpage, getPage_limit, Int64.toInt_one, Int.bmod_mul_bmod]
  rfl

theorem limit_eq (conf : Defaults) (dto : PaginateDto) :
    (getPaginateFunc conf dto).1.limit = if dto.limit ≤ 0 then conf.limit else dto.limit := by
  simp only [getPaginateFunc, PaginateDto.getLimit, getPage_limit]
  split_ifs with h
  · rfl
  · exact getPage_limit conf dto

theorem userArr_eq (conf : Defaults) {t : Users} (order : RowOrder t) (dto : PaginateDto) :
    (selectPaginatedUsers conf none none order dto).1.userArr =
      page ((product dto).bmod (2^64)).toNat (pageSize conf dto.limit) order.rows := by
  have hpos := limit_pos conf dto.limit
  have hneg : ¬(if dto.limit ≤ 0 then conf.limit else dto.limit) < 0 := by
    rw [Int64.lt_iff_toInt_lt, Int64.toInt_zero]
    omega
  simp only [selectPaginatedUsers, Query.fetch, limit_eq, offset_eq, if_neg hneg, pageSize]

/-! ## When a page is the right one -/

/-- The product does not fit, and what it wraps around to happens to be the
offset or points behind the end as the offset does. -/
def Wraps (conf : Defaults) (rows : ℕ) (dto : PaginateDto) : Prop :=
  ¬(-2^63 ≤ product dto ∧ product dto < 2^63) ∧
    (((product dto).bmod (2^64)).toNat = (pageNumber dto.curr-1)*pageSize conf dto.limit ∨
      rows ≤ ((product dto).bmod (2^64)).toNat ∧
        rows ≤ (pageNumber dto.curr-1)*pageSize conf dto.limit)

def Aligned (conf : Defaults) (rows : ℕ) (dto : PaginateDto) : Prop :=
  pageNumber dto.curr = 1 ∨ rows = 0 ∨ (0 < dto.limit ∧ product dto < 2^63) ∨
    Wraps conf rows dto

instance (conf : Defaults) (rows : ℕ) (dto : PaginateDto) : Decidable (Aligned conf rows dto) :=
  inferInstanceAs (Decidable (_ ∨ _ ∨ _ ∨ _ ∧ _))

theorem product_of_pos (conf : Defaults) {dto : PaginateDto} (h : 0 < dto.limit) :
    product dto = ((pageNumber dto.curr-1)*pageSize conf dto.limit : ℕ) := by
  have hpos : 0 < dto.limit.toInt := by
    rwa [Int64.lt_iff_toInt_lt, Int64.toInt_zero] at h
  have hle : ¬dto.limit ≤ 0 := by
    rw [Int64.le_iff_toInt_le, Int64.toInt_zero]
    omega
  have hpage := pageNumber_pos dto.curr
  rw [product, pageSize, if_neg hle]
  push_cast [Nat.cast_sub hpage, Int.toNat_of_nonneg hpos.le]
  rfl

theorem product_nonpos {dto : PaginateDto} (h : ¬0 < dto.limit) : product dto ≤ 0 := by
  have hlimit : dto.limit.toInt ≤ 0 := by
    rw [Int64.lt_iff_toInt_lt, Int64.toInt_zero] at h
    omega
  have hpage := pageNumber_pos dto.curr
  exact mul_nonpos_of_nonneg_of_nonpos (by omega) hlimit

theorem bmod_of_fits {z : ℤ} (h : -2^63 ≤ z ∧ z < 2^63) : z.bmod (2^64) = z :=
  Int.bmod_eq_of_le (by norm_num; omega) (by norm_num; omega)

theorem aligned_iff (conf : Defaults) (rows : ℕ) (dto : PaginateDto) :
    (((product dto).bmod (2^64)).toNat = (pageNumber dto.curr-1)*pageSize conf dto.limit ∨
      rows ≤ ((product dto).bmod (2^64)).toNat ∧
        rows ≤ (pageNumber dto.curr-1)*pageSize conf dto.limit) ↔ Aligned conf rows dto := by
  have hsize := pageSize_pos conf dto.limit
  have hpage := pageNumber_pos dto.curr
  by_cases hfits : -2^63 ≤ product dto ∧ product dto < 2^63
  · have hwraps : ¬Wraps conf rows dto := fun h => h.1 hfits
    rw [bmod_of_fits hfits]
    by_cases hpos : 0 < dto.limit
    · have heq := product_of_pos conf hpos
      exact iff_of_true (Or.inl (by omega)) (Or.inr (Or.inr (Or.inl ⟨hpos,hfits.2⟩)))
    · have hzero : (product dto).toNat = 0 := Int.toNat_of_nonpos (product_nonpos hpos)
      rw [hzero]
      have hone : 0 = (pageNumber dto.curr-1)*pageSize conf dto.limit ↔
          pageNumber dto.curr = 1 := by
        rw [eq_comm, Nat.mul_eq_zero]
        omega
      simp only [Aligned, hone, hpos, hwraps, false_and, or_false]
      omega
  · constructor
    · intro h
      exact Or.inr (Or.inr (Or.inr ⟨hfits,h⟩))
    · rintro (hone | rfl | ⟨hpos,hlt⟩ | hwraps)
      · exact absurd (by simp [product, hone]) hfits
      · exact Or.inr ⟨Nat.zero_le _,Nat.zero_le _⟩
      · have heq := product_of_pos conf hpos
        exact absurd ⟨by omega,hlt⟩ hfits
      · exact hwraps.2

theorem userArr_eq_iff (conf : Defaults) {t : Users} (order : RowOrder t) (dto : PaginateDto) :
    (selectPaginatedUsers conf none none order dto).1.userArr =
      page ((pageNumber dto.curr-1)*pageSize conf dto.limit) (pageSize conf dto.limit)
        order.rows ↔ Aligned conf order.rows.length dto := by
  rw [userArr_eq, page_eq_iff order.nodup (pageSize_pos conf dto.limit), aligned_iff]

theorem pageNumber_ofNat {i : ℕ} (h : i+1 < 2^63) : pageNumber (.ofNat (i+1)) = i+1 := by
  have htoInt : (Int64.ofNat (i+1)).toInt = (i+1 : ℕ) := Int64.toInt_ofNat_of_lt h
  rw [pageNumber, if_neg (by rw [Int64.le_iff_toInt_le, Int64.toInt_zero, htoInt]; omega), htoInt]
  exact Int.toNat_natCast _

/-- A request whose offset fits gets the rows of its page exactly when the page is the first, its
size was sent, or there are no rows; any request does exactly when it is aligned. Pages sent one
after the other with one limit make up the table exactly as long as all of them are. -/
theorem pages_exact_iff_aligned (conf : Defaults) {t : Users} (order : RowOrder t) :
    (∀ dto, -2^63 ≤ product dto → product dto < 2^63 →
      ((selectPaginatedUsers conf none none order dto).1.userArr =
        page ((pageNumber dto.curr-1)*pageSize conf dto.limit) (pageSize conf dto.limit)
          order.rows ↔
        pageNumber dto.curr = 1 ∨ order.rows.length = 0 ∨ 0 < dto.limit)) ∧
      (∀ dto, (selectPaginatedUsers conf none none order dto).1.userArr =
        page ((pageNumber dto.curr-1)*pageSize conf dto.limit) (pageSize conf dto.limit)
          order.rows ↔ Aligned conf order.rows.length dto) ∧
      ∀ limit count, count < 2^63 →
        ((∀ n ≤ count, (List.range n).flatMap (fun i =>
            (selectPaginatedUsers conf none none order
              { curr := .ofNat (i+1), limit := limit }).1.userArr) =
            order.rows.take (n*pageSize conf limit)) ↔
          ∀ i < count,
            Aligned conf order.rows.length { curr := .ofNat (i+1), limit := limit }) := by
  refine ⟨?_,userArr_eq_iff conf order,?_⟩
  · intro dto hlow hhigh
    have hwraps : ¬Wraps conf order.rows.length dto := fun h => h.1 ⟨hlow,hhigh⟩
    rw [userArr_eq_iff, Aligned, or_iff_left hwraps, and_iff_left hhigh]
  · intro limit count hcount
    rw [flatMap_eq_take_iff]
    refine forall₂_congr fun i hi => ?_
    rw [← userArr_eq_iff, pageNumber_ofNat (by omega)]
    rfl

def settings : Defaults where
  curr := 1
  limit := 10
  curr_one := rfl
  limit_pos := by decide

def twoUsers : Users :=
  createRow { username := "b" } (createRow { username := "a" } (.empty User.id))

def byId : RowOrder twoUsers where
  rows := [{ id := 1, username := "a" },{ id := 2, username := "b" }]
  perm := by decide

theorem single_rows_make_up_table :
    (List.range 2).flatMap (fun i =>
      (selectPaginatedUsers settings none none byId
        { curr := .ofNat (i+1), limit := 1 }).1.userArr) = byId.rows ∧
      (selectPaginatedUsers settings none none byId { curr := 2, limit := 1 }).1.userArr =
        page 1 1 byId.rows := by
  have h := pages_exact_iff_aligned settings byId
  exact ⟨(h.2.2 1 2 (by decide)).mpr (by decide) 2 le_rfl,
    (h.1 { curr := 2, limit := 1 } (by decide) (by decide)).mpr (by decide)⟩

/-- Without a limit the second page is the first. -/
theorem second_page_repeats_first :
    (selectPaginatedUsers settings none none byId { curr := 2, limit := 0 }).1.userArr = byId.rows ∧
      (selectPaginatedUsers settings none none byId { curr := 1, limit := 0 }).1.userArr =
        byId.rows ∧
      page ((pageNumber 2-1)*pageSize settings 0) (pageSize settings 0) byId.rows = [] := by
  decide

end Gopher.Pagination
