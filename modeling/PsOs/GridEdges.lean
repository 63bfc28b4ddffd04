import Mathlib.Data.Finset.Prod
import Mathlib.Data.Finset.Image
import PsOs.Grid

/-! The pairs of neighbours in a grid of `height` rows. -/

namespace PsOs.Grid

variable {width height p q : ℕ}

/-- A pair of neighbours stands here with the smaller cell in front. -/
def edges (width size : ℕ) : Finset (ℕ × ℕ) :=
  (Finset.range size ×ˢ Finset.range size).filter fun e => e.1 < e.2 ∧ Adjacent width e.1 e.2

theorem mem_edges {size : ℕ} :
    (p, q) ∈ edges width size ↔ q < size ∧ p < q ∧ Adjacent width p q := by
  simp only [edges, Finset.mem_filter, Finset.mem_product, Finset.mem_range]
  constructor
  · rintro ⟨⟨-, hq⟩, hlt, hadj⟩
    exact ⟨hq, hlt, hadj⟩
  · rintro ⟨hq, hlt, hadj⟩
    exact ⟨⟨hlt.trans hq, hq⟩, hlt, hadj⟩

def columnEdges (width height : ℕ) : Finset (ℕ × ℕ) :=
  (Finset.range (width * (height - 1))).image fun p => (p, p + width)

def rowEdges (width height : ℕ) : Finset (ℕ × ℕ) :=
  (Finset.range height ×ˢ Finset.range (width - 1)).image fun c =>
    (width * c.1 + c.2, width * c.1 + c.2 + 1)

theorem card_columnEdges : (columnEdges width height).card = width * (height - 1) := by
  rw [columnEdges, Finset.card_image_of_injective, Finset.card_range]
  intro p q h
  exact congrArg Prod.fst h

theorem mem_columnEdges : (p, q) ∈ columnEdges width height ↔
    p < width * (height - 1) ∧ q = p + width := by
  simp only [columnEdges, Finset.mem_image, Finset.mem_range, Prod.mk.injEq]
  constructor
  · rintro ⟨p', hp, rfl, rfl⟩
    exact ⟨hp, rfl⟩
  · rintro ⟨hp, rfl⟩
    exact ⟨p, hp, rfl, rfl⟩

section Rows

variable (hw : 0 < width)

include hw

theorem cell_div_mod {r c : ℕ} (hc : c < width) :
    (width * r + c) / width = r ∧ (width * r + c) % width = c :=
  (Nat.div_mod_unique hw).mpr ⟨Nat.add_comm _ _, hc⟩

theorem card_rowEdges : (rowEdges width height).card = height * (width - 1) := by
  rw [rowEdges, Finset.card_image_of_injOn, Finset.card_product, Finset.card_range,
    Finset.card_range]
  rintro ⟨r, c⟩ hc ⟨r', c'⟩ hc' h
  simp only [Finset.coe_product, Set.mem_prod, Finset.mem_coe, Finset.mem_range] at hc hc'
  have hcell : width * r + c = width * r' + c' := congrArg Prod.fst h
  obtain ⟨hdiv, hmod⟩ := cell_div_mod hw (by omega : c < width) (r := r)
  obtain ⟨hdiv', hmod'⟩ := cell_div_mod hw (by omega : c' < width) (r := r')
  rw [hcell] at hdiv hmod
  rw [Prod.mk.injEq]
  exact ⟨hdiv.symm.trans hdiv', hmod.symm.trans hmod'⟩

theorem mem_rowEdges : (p, q) ∈ rowEdges width height ↔
    q < width * height ∧ p % width + 1 < width ∧ q = p + 1 := by
  simp only [rowEdges, Finset.mem_image, Finset.mem_product, Finset.mem_range, Prod.exists,
    Prod.mk.injEq]
  constructor
  · rintro ⟨r, c, ⟨hr, hc⟩, rfl, rfl⟩
    have hrow : width * (r + 1) ≤ width * height := Nat.mul_le_mul_left width hr
    rw [Nat.mul_add] at hrow
    rw [(cell_div_mod hw (by omega : c < width)).2]
    omega
  · rintro ⟨hq, hcol, rfl⟩
    have hrow : p / width < height := Nat.div_lt_of_lt_mul (by omega)
    refine ⟨p / width, p % width, ⟨hrow, by omega⟩, ?_⟩
    rw [Nat.div_add_mod]
    exact ⟨rfl, rfl⟩

theorem edges_eq : edges width (width * height) = columnEdges width height ∪ rowEdges width height := by
  have hlast : width * (height - 1) = width * height - width := Nat.mul_sub_one width height
  ext ⟨p, q⟩
  rw [Finset.mem_union, mem_edges, mem_columnEdges, mem_rowEdges hw, adjacent_iff hw, hlast]
  omega

theorem disjoint_edges : Disjoint (columnEdges width height) (rowEdges width height) := by
  rw [Finset.disjoint_left]
  rintro ⟨p, q⟩ hcolumn hrow
  obtain ⟨-, hq⟩ := mem_columnEdges.mp hcolumn
  obtain ⟨-, hcol, hq'⟩ := (mem_rowEdges hw).mp hrow
  omega

theorem card_edges :
    (edges width (width * height)).card = width * (height - 1) + height * (width - 1) := by
  rw [edges_eq hw, Finset.card_union_of_disjoint (disjoint_edges hw), card_columnEdges,
    card_rowEdges hw]

end Rows

end PsOs.Grid
