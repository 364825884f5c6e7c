import ConfidentialTx.Proofs.Group.Extraction
import ConfidentialTx.Proofs.Mlsag.Completeness

/-! Special soundness. If one matrix and one list of key images have two accepted signatures from which
the same points are recomputed, their responses in some column give away the logarithms of all its
keys, and the key images belong to that column. -/
namespace ConfidentialTx.Mlsag

open KeyGroup

section

variable (C : KeyGroup)

/-- `L` of all layers of a column, and `R` of those that have key images. -/
def columnPoints (images : List C.Point) (c : C.Scalar) (column : List (Layer C)) :
    List C.Point × List C.Point :=
  (column.map (Layer.left C c), List.zipWith (Layer.right C c) images column)

/-- The points of some columns; each column has the challenge that the ones before lead to. -/
def chainPoints (message : Key) (images : List C.Point) :
    C.Scalar → List (List (Layer C)) → List (List C.Point × List C.Point)
  | _, [] => []
  | c, column :: columns => columnPoints C images c column ::
      chainPoints message images (nextChallenge C message images c column) columns

/-- All points that are recomputed from a signature, if what they are computed from decodes. -/
def recomputed (message : Key) (matrix : List (List Key)) (s : Signature) :
    Option (List (List C.Point × List C.Point)) :=
  match points? C s.images, C.scalar? s.challenge, decodeColumns C matrix s.responses with
  | some images, some c, .ok columns => some (chainPoints C message images c columns)
  | _, _, _ => none

end

variable {C : KeyGroup} {matrix responses responses' : List (List Key)}
  {column column' : List (Layer C)} {columns columns' : List (List (Layer C))}

/-! ## Two signatures for one matrix -/

structure Layer.Same (x x' : Layer C) : Prop where
  key_eq : x.key = x'.key
  point_eq : x.point = x'.point
  decodes : C.point? x.key = some x.point

theorem Decoded.same {keys rs rs' : List Key} (h : Decoded keys rs column)
    (h' : Decoded keys rs' column') : List.Forall₂ Layer.Same column column' := by
  have heq : List.Forall₂ Eq (column.map (·.key)) (column'.map (·.key)) := by
    rw [List.forall₂_eq_eq_eq, h.keys_eq, h'.keys_eq]
  have hkeys := List.forall₂_map_right_iff.mp (List.forall₂_map_left_iff.mp heq)
  have hpoints := h.points_eq
  have hpoints' := h'.points_eq
  clear h h' heq
  induction hkeys with
  | nil => exact .nil
  | @cons x x' column column' hkey _ ih =>
    rw [List.forall_mem_cons] at hpoints hpoints'
    refine .cons ⟨hkey, Option.some.inj ?_, hpoints.1⟩ (ih hpoints.2 hpoints'.2)
    rw [← hpoints.1, ← hpoints'.1, hkey]

theorem DecodedAll.same (h : DecodedAll matrix responses columns)
    (h' : DecodedAll matrix responses' columns') (hlength : responses.length = responses'.length) :
    List.Forall₂ (List.Forall₂ Layer.Same) columns columns' := by
  induction matrix generalizing responses responses' columns columns' with
  | nil =>
    cases h
    cases h'
    exact .nil
  | cons keys matrix ih =>
    cases responses with
    | nil =>
      obtain rfl := List.length_eq_zero_iff.mp hlength.symm
      cases h
      cases h'
      exact .nil
    | cons rs responses =>
      cases responses' with
      | nil => cases hlength
      | cons rs' responses' =>
        rw [DecodedAll, List.zip_cons_cons, List.forall₂_cons_left_iff] at h h'
        obtain ⟨column, columns, hcolumn, hcolumns, rfl⟩ := h
        obtain ⟨column', columns', hcolumn', hcolumns', rfl⟩ := h'
        exact .cons (hcolumn.same hcolumn') (ih hcolumns hcolumns' (Nat.succ.inj hlength))

theorem DecodedAll.responses_eq (hscalar : ∀ k a, C.scalar? k = some a ↔ k = C.scalarKey a)
    (h : DecodedAll matrix responses columns) (hlength : responses.length = matrix.length) :
    responses = columns.map (·.map fun x => C.scalarKey x.response) := by
  have hcolumn : ∀ {rs : List Key} {column : List (Layer C)},
      List.Forall₂ (fun k x => C.scalar? k = some x.response) rs column →
        rs = column.map fun x => C.scalarKey x.response := by
    intro rs column hrs
    rw [← List.forall₂_eq_eq_eq, List.forall₂_map_right_iff]
    exact hrs.imp fun k x hk => (hscalar _ _).mp hk
  rw [← List.map_snd_zip hlength.le, ← List.forall₂_eq_eq_eq, List.forall₂_map_left_iff,
    List.forall₂_map_right_iff]
  exact h.imp fun x column hx => hcolumn hx.responses_eq

theorem Signature.eq_of_decoded (hscalar : ∀ k a, C.scalar? k = some a ↔ k = C.scalarKey a)
    {s s' : Signature} {c : C.Scalar} (himages : s.images = s'.images)
    (hc : C.scalar? s.challenge = some c) (hc' : C.scalar? s'.challenge = some c)
    (h : DecodedAll matrix s.responses columns) (hlength : s.responses.length = matrix.length)
    (h' : DecodedAll matrix s'.responses columns) (hlength' : s'.responses.length = matrix.length) :
    s = s' := by
  obtain ⟨responses, challenge, images⟩ := s
  obtain ⟨responses', challenge', images'⟩ := s'
  obtain rfl : responses = responses' :=
    (h.responses_eq hscalar hlength).trans (h'.responses_eq hscalar hlength').symm
  obtain rfl : challenge = challenge' := ((hscalar _ _).mp hc).trans ((hscalar _ _).mp hc').symm
  obtain rfl : images = images' := himages
  rfl

/-! ## What two signatures give away -/

/-- The logarithms that the responses of a column to two challenges give away. -/
def extractedAll [ScalarAction C] (c c' : C.Scalar) (column column' : List (Layer C)) :
    List C.Scalar :=
  List.zipWith (fun x x' => extracted c x.response c' x'.response) column column'

section

variable [ScalarAction C] [PrimeOrder C] {c c' : C.Scalar}

theorem eq_of_left_eq (h : List.Forall₂ Layer.Same column column')
    (hleft : column.map (Layer.left C c) = column'.map (Layer.left C c)) : column = column' := by
  induction h with
  | nil => rfl
  | @cons x x' column column' hx _ ih =>
    rw [List.map_cons, List.map_cons, List.cons.injEq] at hleft
    obtain ⟨key, P, s⟩ := x
    obtain ⟨key', P', s'⟩ := x'
    obtain rfl : key = key' := hx.key_eq
    obtain rfl : P = P' := hx.point_eq
    obtain rfl : s = s' := PrimeOrder.response_eq hleft.1
    rw [ih hleft.2]

theorem ownsKeys_extractedAll (h : List.Forall₂ Layer.Same column column') (hc : c ≠ c')
    (hleft : column.map (Layer.left C c) = column'.map (Layer.left C c')) :
    OwnsKeys C (extractedAll c c' column column') (column.map (·.key)) := by
  induction h with
  | nil => exact .nil
  | @cons x x' column column' hx _ ih =>
    rw [List.map_cons, List.map_cons, List.cons.injEq] at hleft
    refine .cons ?_ (ih hleft.2)
    have hpoint := hleft.1
    rw [Layer.left, Layer.left, ← hx.point_eq] at hpoint
    rw [hx.decodes, Option.some.injEq]
    exact eq_smulBase_extracted (PrimeOrder.order_nsmul _) hc hpoint

theorem image_eq_of_right_eq (h : List.Forall₂ Layer.Same column column') (hc : c ≠ c')
    {images : List C.Point}
    (hright : List.zipWith (Layer.right C c) images column =
      List.zipWith (Layer.right C c') images column')
    {j : ℕ} {I : C.Point} (hI : images[j]? = some I) (hj : j < column.length) :
    ∃ x, (extractedAll c c' column column')[j]? = some x ∧
      I = C.smul x (C.hashToPoint column[j].key) := by
  have hj' : j < column'.length := h.length_eq ▸ hj
  have hx : (column[j]).Same column'[j] := h.get hj hj'
  have hat := congrArg (·[j]?) hright
  simp only [List.getElem?_zipWith, hI, List.getElem?_eq_getElem hj, List.getElem?_eq_getElem hj',
    Option.some.injEq] at hat
  rw [Layer.right, Layer.right, ← hx.key_eq] at hat
  refine ⟨extracted c column[j].response c' column'[j].response, by simp [extractedAll, hj, hj'],
    eq_smul_extracted_of_smulAdd (PrimeOrder.order_nsmul I) (PrimeOrder.order_nsmul _) hc hat⟩

/-- A column with different challenges gives away its logarithms, to which the key images belong. -/
theorem exists_ownsKeys_of_columnPoints_eq (h : List.Forall₂ Layer.Same column column')
    (hc : c ≠ c') {imageKeys : List Key} {images : List C.Point}
    (hpoints : columnPoints C images c column = columnPoints C images c' column')
    (himages : List.Forall₂ (fun k I => C.point? k = some I) imageKeys images)
    (hlength : imageKeys.length ≤ column.length) :
    ∃ xs, OwnsKeys C xs (column.map (·.key)) ∧ ∀ j < imageKeys.length, ∃ image key x,
      imageKeys[j]? = some image ∧ (column.map (·.key))[j]? = some key ∧ xs[j]? = some x ∧
        C.point? image = some (C.smul x (C.hashToPoint key)) := by
  obtain ⟨hleft, hright⟩ := Prod.mk.inj hpoints
  refine ⟨extractedAll c c' column column', ownsKeys_extractedAll h hc hleft, fun j hj => ?_⟩
  have hj' : j < images.length := himages.length_eq ▸ hj
  obtain ⟨x, hx, hI⟩ := image_eq_of_right_eq h hc hright (List.getElem?_eq_getElem hj')
    (hj.trans_le hlength)
  refine ⟨imageKeys[j], column[j].key, x, List.getElem?_eq_getElem hj, ?_, hx, ?_⟩
  · rw [List.getElem?_map, List.getElem?_eq_getElem (hj.trans_le hlength), Option.map_some]
  · rw [← hI]
    exact himages.get hj hj'

theorem eq_or_exists_challenge_ne {message message' : Key} {images : List C.Point}
    (h : List.Forall₂ (List.Forall₂ Layer.Same) columns columns')
    (hsame : chainPoints C message images c columns = chainPoints C message' images c' columns') :
    (columns = columns' ∧ (columns ≠ [] → c = c')) ∨
      ∃ (i : ℕ) (column column' : List (Layer C)) (d d' : C.Scalar), columns[i]? = some column ∧
        columns'[i]? = some column' ∧ d ≠ d' ∧
          columnPoints C images d column = columnPoints C images d' column' := by
  -- A column with equal challenges is the same in both, and the columns after it are compared with
  -- whatever challenges it leads to.
  induction h generalizing c c' with
  | nil => exact .inl ⟨rfl, fun hne => absurd rfl hne⟩
  | @cons column column' columns columns' hcolumn _ ih =>
    rw [chainPoints, chainPoints, List.cons.injEq] at hsame
    by_cases hc : c = c'
    · subst hc
      obtain rfl := eq_of_left_eq hcolumn (Prod.mk.inj hsame.1).1
      rcases ih hsame.2 with ⟨rfl, -⟩ | ⟨i, hi⟩
      · exact .inl ⟨rfl, fun _ => rfl⟩
      · exact .inr ⟨i + 1, hi⟩
    · exact .inr ⟨0, column, column', c, c', rfl, rfl, hc, hsame.1⟩

/-- Two different signatures with the same key images that are accepted for one matrix, and from
which the same points are recomputed, give away all logarithms of some column, and each key image is
the multiple of a hashed key of that column by its logarithm. -/
theorem exists_ownsKeys_of_verify
    (hscalar : ∀ k a, C.scalar? k = some a ↔ k = C.scalarKey a) {message message' : Key}
    {s s' : Signature} {linkable : ℕ} (h : verify C message matrix s linkable = true)
    (h' : verify C message' matrix s' linkable = true) (himages : s.images = s'.images)
    (hne : s ≠ s') (hsame : recomputed C message matrix s = recomputed C message' matrix s') :
    ∃ (i : ℕ) (keys : List Key) (xs : List C.Scalar), matrix[i]? = some keys ∧ OwnsKeys C xs keys ∧
      ∀ j < linkable, ∃ image key x, s.images[j]? = some image ∧ keys[j]? = some key ∧
        xs[j]? = some x ∧ C.point? image = some (C.smul x (C.hashToPoint key)) := by
  obtain ⟨rows, images, c, columns, hrows, hlinkable, hlength, hcount, hresponses, hpoints, hc,
    hcolumns, -⟩ := check_eq_ok_iff.mp (verify_eq_true_iff.mp h)
  obtain ⟨rows', images', c', columns', hrows', -, -, hcount', hresponses', hpoints', hc',
    hcolumns', -⟩ := check_eq_ok_iff.mp (verify_eq_true_iff.mp h')
  obtain rfl : rows = rows' := Except.ok.inj (hrows.symm.trans hrows')
  obtain rfl : images = images' := by
    rw [himages] at hpoints
    exact Option.some.inj (hpoints.symm.trans hpoints')
  simp only [recomputed, hpoints, hpoints', hc, hc', hcolumns, hcolumns', Option.some.injEq] at hsame
  rw [decodeColumns_eq_ok_iff (length_eq_of_mem_zip hrows hresponses)] at hcolumns
  rw [decodeColumns_eq_ok_iff (length_eq_of_mem_zip hrows hresponses')] at hcolumns'
  have htwins := hcolumns.same hcolumns' (hcount.trans hcount'.symm)
  rcases eq_or_exists_challenge_ne htwins hsame with
    ⟨rfl, hstart⟩ | ⟨i, column, column', d, d', hcolumn, hcolumn', hd, hcolumnPoints⟩
  · have hcolumnsNe : columns ≠ [] := by
      rintro rfl
      have hzip := hcolumns.length_eq
      rw [List.length_zip, hcount, Nat.min_self] at hzip
      exact (rowCount_eq_ok_iff.mp hrows).1 (List.length_eq_zero_iff.mp hzip)
    rw [← hstart hcolumnsNe] at hc'
    exact absurd (Signature.eq_of_decoded hscalar himages hc hc' hcolumns hcount hcolumns' hcount') hne
  · obtain ⟨⟨keys, rs⟩, hkeys, hdecoded⟩ := exists_getElem?_of_forall₂ hcolumns hcolumn
    obtain ⟨column₀, hcolumn₀, htwin⟩ := exists_getElem?_of_forall₂ htwins hcolumn'
    obtain rfl : column = column₀ := Option.some.inj (hcolumn.symm.trans hcolumn₀)
    obtain rfl : column.map (·.key) = keys := hdecoded.keys_eq
    have hmatrix := (List.getElem?_zip_eq_some.mp hkeys).1
    have hcolumnLength := (rowCount_eq_ok_iff.mp hrows).2.2 _ (List.mem_of_getElem? hmatrix)
    rw [List.length_map] at hcolumnLength
    rw [← hlength]
    obtain ⟨xs, howns, himage⟩ := exists_ownsKeys_of_columnPoints_eq htwin hd hcolumnPoints
      (Option.mapM_eq_some_iff.mp hpoints) (by omega)
    exact ⟨i, _, xs, hmatrix, howns, himage⟩

end

open Residue (wideGroup wideOrder_pos)

def twinSecrets : List wideGroup.Scalar :=
  [Residue.ofNat wideOrder_pos 3, Residue.ofNat wideOrder_pos 4]

def twinColumns : List (List Key) := List.replicate 2 (twinSecrets.map wideGroup.publicKey)

/-- The nonces of a column, whatever the message. -/
def fixedNonces (column : ℕ) : List wideGroup.Scalar :=
  [Residue.ofNat wideOrder_pos (column + 5), Residue.ofNat wideOrder_pos (column + 7)]

def challengeAfter (message : Key) (column : ℕ) : wideGroup.Scalar :=
  wideGroup.hashKeys (message :: nonceKeys wideGroup 1 (twinSecrets.map wideGroup.publicKey)
    (fixedNonces column))

/-- A signature by someone who knows the secrets of both columns and answers for both of them. -/
def signedTwice (message : Key) : Signature where
  responses := [respond wideGroup (challengeAfter message 1) (fixedNonces 0) twinSecrets,
    respond wideGroup (challengeAfter message 0) (fixedNonces 1) twinSecrets].map
      (·.map wideGroup.scalarKey)
  challenge := wideGroup.scalarKey (challengeAfter message 1)
  images := (keyImages wideGroup 1 (twinSecrets.map wideGroup.publicKey) twinSecrets).map
    wideGroup.pointKey

/-- Two messages that are signed with the same nonces in both columns give a column away. -/
theorem exists_ownsKeys_of_verify_twinColumns :
    ∃ (i : ℕ) (keys : List Key) (xs : List wideGroup.Scalar), twinColumns[i]? = some keys ∧
      OwnsKeys wideGroup xs keys ∧ ∀ j < 1, ∃ image key x,
        (signedTwice (.replicate 32 7)).images[j]? = some image ∧ keys[j]? = some key ∧
          xs[j]? = some x ∧
            wideGroup.point? image = some (wideGroup.smul x (wideGroup.hashToPoint key)) := by
  obtain ⟨hverify, hverify', hne, hsame⟩ :
      verify wideGroup (.replicate 32 7) twinColumns (signedTwice (.replicate 32 7)) 1 = true ∧
        verify wideGroup (.replicate 32 8) twinColumns (signedTwice (.replicate 32 8)) 1 = true ∧
        signedTwice (.replicate 32 7) ≠ signedTwice (.replicate 32 8) ∧
        recomputed wideGroup (.replicate 32 7) twinColumns (signedTwice (.replicate 32 7)) =
          recomputed wideGroup (.replicate 32 8) twinColumns (signedTwice (.replicate 32 8)) := by
    decide +kernel
  exact exists_ownsKeys_of_verify Lawful.scalar?_eq_some_iff hverify hverify' rfl hne hsame

end ConfidentialTx.Mlsag
