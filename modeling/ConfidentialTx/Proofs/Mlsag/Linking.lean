import ConfidentialTx.Proofs.Mlsag.Completeness
import ConfidentialTx.Proofs.RingSignature.Completeness

/-! Who knows the secrets of a column can sign, and cannot hide that it was the same secret. Signing
comes to an end on every stream, and the key images are those that ring signatures by the same
secrets have. -/
namespace ConfidentialTx.Mlsag

open KeyGroup

variable {C : KeyGroup} {message : Key}

theorem total_simulate (images : List C.Point) (c : C.Scalar) (columns : List (Column C)) :
    (simulate C message images c columns).Total := by
  induction columns generalizing c with
  | nil => exact Draw.total_pure ([], c)
  | cons column columns ih =>
    refine (Draw.total_scalars C column.length).bind fun responses _ => ?_
    exact (ih _).bind fun rest _ => Draw.total_pure _

theorem total_signBetween (linkable : ℕ) (secrets : List C.Scalar) (before : List (Column C))
    (own : Column C) (after : List (Column C)) :
    (signBetween C message linkable secrets before own after).Total := by
  refine (Draw.total_scalars C own.length).bind fun nonces _ => ?_
  refine (total_simulate _ _ after).bind fun first _ => ?_
  exact (total_simulate _ _ before).bind fun last _ => Draw.total_pure _

theorem images_of_signBetween {linkable : ℕ} {secrets : List C.Scalar} {own : Column C}
    {before after : List (Column C)} {s : Signature}
    (h : (signBetween C message linkable secrets before own after).Yields s) :
    s.images = (keyImages C linkable (own.map (·.1)) secrets).map C.pointKey := by
  obtain ⟨nonces, -, h⟩ := h.of_bind
  obtain ⟨first, -, h⟩ := h.of_bind
  obtain ⟨last, -, h⟩ := h.of_bind
  rw [Draw.yields_pure_iff.mp h]

theorem isSome_mapM_decodeKeys_iff {matrix : List (List Key)} :
    (matrix.mapM (decodeKeys C)).isSome = true ↔
      ∀ keys ∈ matrix, ∀ k ∈ keys, (C.point? k).isSome = true := by
  simp only [Option.isSome_mapM_iff, decodeKeys, Option.isSome_map, points?]

/-- Signing is refused only for an objection to what it is given. -/
theorem total_sign {matrix : List (List Key)} {secrets : List C.Scalar} {index linkable : ℕ}
    (hrows : rowCount matrix = .ok secrets.length) (hindex : index < matrix.length)
    (hlinkable : linkable ≤ secrets.length)
    (hpoints : ∀ keys ∈ matrix, ∀ k ∈ keys, (C.point? k).isSome = true) :
    (sign C message matrix secrets index linkable).Total := by
  obtain ⟨columns, hcolumns⟩ := Option.isSome_iff_exists.mp (isSome_mapM_decodeKeys_iff.mpr hpoints)
  refine Draw.total_lift_bind hrows ?_
  rw [if_neg (not_not.mpr rfl), if_neg (by omega), if_neg (by omega), hcolumns]
  exact total_signBetween _ _ _ _ _

theorem isSome_point?_of_sign {matrix : List (List Key)} {secrets : List C.Scalar}
    {index linkable : ℕ} {s : Signature}
    (h : (sign C message matrix secrets index linkable).Yields s) :
    ∀ keys ∈ matrix, ∀ k ∈ keys, (C.point? k).isSome = true := by
  obtain ⟨-, -, columns, -, hcolumns, -⟩ := signBetween_of_sign h
  exact isSome_mapM_decodeKeys_iff.mp (by rw [hcolumns]; rfl)

theorem getElem?_images_of_sign {matrix : List (List Key)} {secrets : List C.Scalar}
    {index linkable : ℕ} {s : Signature} {keys : List Key}
    (h : (sign C message matrix secrets index linkable).Yields s)
    (hkeys : matrix[index]? = some keys) {j : ℕ} {x : C.Scalar} (hj : j < linkable)
    (hx : secrets[j]? = some x) (hkey : keys[j]? = some (C.publicKey x)) :
    s.images[j]? = some (C.keyImage x) := by
  obtain ⟨-, -, columns, own, hcolumns, hown, h⟩ := signBetween_of_sign h
  obtain ⟨keys', hkeys', hdecode⟩ :=
    exists_getElem?_of_forall₂ (Option.mapM_eq_some_iff.mp hcolumns) hown
  rw [hkeys, Option.some.injEq] at hkeys'
  rw [← hkeys'] at hdecode
  rw [images_of_signBetween h, (decodeKeys_eq_some_iff.mp hdecode).1, keyImages, List.getElem?_map,
    List.getElem?_zipWith, List.getElem?_take_of_lt hj, hkey, hx]
  rfl

/-- With the logarithms of a column of a matrix of points a signature can be made on every stream, and
it is accepted. -/
theorem exists_accepted_signature [ScalarAction C]
    (hcofactor : ∀ P, ScalarAction.order C • C.mulByCofactor P = 0)
    (hpoint : ∀ P, C.point? (C.pointKey P) = some P)
    (hscalar : ∀ k a, C.scalar? k = some a ↔ k = C.scalarKey a)
    {matrix : List (List Key)} {rows index linkable : ℕ} {keys : List Key}
    {secrets : List C.Scalar} (hrows : 0 < rows) (hcolumns : ∀ column ∈ matrix, column.length = rows)
    (hpoints : ∀ column ∈ matrix, ∀ k ∈ column, (C.point? k).isSome = true)
    (hkeys : matrix[index]? = some keys) (howns : OwnsKeys C secrets keys)
    (hlinkable : linkable ≤ rows) (message : Key) (e : Entropy) :
    ∃ s e', sign C message matrix secrets index linkable e = .ok (s, e') ∧
      verify C message matrix s linkable = true ∧ s.images.length = linkable ∧
        ∀ (j : ℕ) (x : C.Scalar), j < linkable → secrets[j]? = some x →
          keys[j]? = some (C.publicKey x) → s.images[j]? = some (C.keyImage x) ∧
            ∀ attempts message' mixins signed e₁ e₂,
              RingSignature.sign C attempts message' mixins x e₁ = .ok (signed, e₂) →
                s.images[j]? = some signed.keyImage := by
  have hresponsive := ScalarAction.responsive hcofactor hpoint hscalar
  have hlength : keys.length = rows := hcolumns keys (List.mem_of_getElem? hkeys)
  have hsecrets : secrets.length = rows := howns.length_eq.symm.trans hlength
  have hcount : rowCount matrix = .ok secrets.length := by
    rw [hsecrets]
    exact rowCount_eq_ok_iff.mpr ⟨List.ne_nil_of_mem (List.mem_of_getElem? hkeys), hrows, hcolumns⟩
  have hindex := (List.getElem?_eq_some_iff.mp hkeys).1
  have htotal : (sign C message matrix secrets index linkable).Total :=
    total_sign hcount hindex (by omega) hpoints
  obtain ⟨s, e', hs⟩ := htotal e
  have hown : ∀ keys', matrix[index]? = some keys' → OwnsKeys C secrets keys' := by
    intro keys' hkeys'
    rw [hkeys, Option.some.injEq] at hkeys'
    rwa [← hkeys']
  obtain ⟨himages, hcheck⟩ := check_sign ⟨e, e', hs⟩ hown
  refine ⟨s, e', hs, by rw [verify, hcheck]; rfl, himages, fun j x hj hx hkey => ?_⟩
  have himage := getElem?_images_of_sign ⟨e, e', hs⟩ hkeys hj hx hkey
  refine ⟨himage, fun attempts message' mixins signed e₁ e₂ hsigned => ?_⟩
  rw [himage, RingSignature.keyImage_of_sign ⟨e₁, e₂, hsigned⟩]

open Residue (wideGroup wideOrder_pos)

def columnSecrets : List wideGroup.Scalar :=
  [Residue.ofNat wideOrder_pos 3, Residue.ofNat wideOrder_pos 4]

/-- Three columns; the last one has the keys of the secrets. -/
def threeColumns : List (List Key) :=
  [[wideGroup.publicKey (Residue.ofNat wideOrder_pos 5), wideGroup.pointKey wideGroup.amountBase],
    [wideGroup.pointKey wideGroup.zero, wideGroup.pointKey wideGroup.zero],
    columnSecrets.map wideGroup.publicKey]

/-- The owner of the last of three columns signs and shows the key image of the first layer. -/
theorem exists_accepted_signature_wideGroup : ∃ s e',
    sign wideGroup (.replicate 32 7) threeColumns columnSecrets 2 1 ⟨fun k => UInt8.ofNat k, 0⟩ =
        .ok (s, e') ∧
      verify wideGroup (.replicate 32 7) threeColumns s 1 = true ∧ s.images.length = 1 ∧
        s.images[0]? = some (wideGroup.keyImage (Residue.ofNat wideOrder_pos 3)) := by
  have hpoint := Lawful.point?_pointKey (C := wideGroup)
  have hpoints : ∀ column ∈ threeColumns, ∀ k ∈ column, (wideGroup.point? k).isSome = true := by
    decide +kernel
  have howns : OwnsKeys wideGroup columnSecrets (columnSecrets.map wideGroup.publicKey) := by
    rw [OwnsKeys, List.forall₂_map_left_iff, List.forall₂_same]
    exact fun x _ => hpoint _
  have hown : threeColumns[2]? = some (columnSecrets.map wideGroup.publicKey) := rfl
  obtain ⟨s, e', hs, hverify, hlength, hall⟩ := exists_accepted_signature
    Lawful.order_nsmul_mulByCofactor hpoint Lawful.scalar?_eq_some_iff (by decide : 0 < 2)
    (by decide) hpoints hown howns (by decide : 1 ≤ 2) (.replicate 32 7)
    ⟨fun k => UInt8.ofNat k, 0⟩
  exact ⟨s, e', hs, hverify, hlength, (hall 0 _ (by decide) rfl rfl).1⟩

end ConfidentialTx.Mlsag
