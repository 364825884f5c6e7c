import ConfidentialTx.Mlsag.Verification
import ConfidentialTx.Proofs.Outcome

/-! What it takes for a layered ring signature to be accepted. -/
namespace ConfidentialTx.Mlsag

theorem rowCount_eq_ok_iff {matrix : List (List Key)} {rows : Nat} :
    rowCount matrix = .ok rows ↔
      matrix ≠ [] ∧ 0 < rows ∧ ∀ column ∈ matrix, column.length = rows := by
  cases matrix with
  | nil => simp [rowCount]
  | cons column matrix =>
    have hall : (∀ c ∈ column :: matrix, c.length = column.length) ↔
        (column :: matrix).find? (fun c => c.length ≠ column.length) = none := by
      simp
    simp only [rowCount, ne_eq, reduceCtorEq, not_false_eq_true, true_and]
    split
    · rename_i hempty
      simp only [reduceCtorEq, false_iff, hempty]
      rintro ⟨hpos, h⟩
      have hlen := h [] (by simp)
      simp only [List.length_nil] at hlen
      omega
    · rename_i hne
      split
      · rename_i c hc
        simp only [reduceCtorEq, false_iff, not_and]
        intro _ h
        have hcol := h column (by simp)
        have hmem := h c (List.mem_of_find?_eq_some hc)
        have hneq := List.find?_some hc
        simp [hmem, hcol] at hneq
      · rename_i hnone
        have h := hall.mpr hnone
        simp only [Except.ok.injEq]
        constructor
        · rintro rfl
          exact ⟨List.length_pos_iff.mpr hne, h⟩
        · rintro ⟨-, h'⟩
          exact h' column (by simp)

theorem length_headD_of_rowCount {matrix : List (List Key)} {rows : Nat}
    (h : rowCount matrix = .ok rows) : (matrix.headD []).length = rows := by
  obtain ⟨hne, -, hall⟩ := rowCount_eq_ok_iff.mp h
  exact length_headD_of_forall hne hall

variable {C : KeyGroup}

theorem decodeKeys_eq_some_iff {keys : List Key} {column : Column C} :
    decodeKeys C keys = some column ↔
      column.map (·.1) = keys ∧ ∀ k ∈ column, C.point? k.1 = some k.2 := by
  rw [decodeKeys, Option.map_eq_some_iff]
  simp only [points?, Option.mapM_eq_some_iff]
  constructor
  · rintro ⟨points, h, rfl⟩
    refine ⟨List.map_fst_zip (Nat.le_of_eq h.length_eq), ?_⟩
    rintro ⟨k, P⟩ hk
    exact List.forall₂_zip h hk
  · rintro ⟨rfl, h⟩
    refine ⟨column.map (·.2), ?_, by simp [List.zip_map', List.map_id']⟩
    simp only [List.forall₂_map_left_iff, List.forall₂_map_right_iff, List.forall₂_same]
    exact h

theorem length_column_of_rowCount {matrix : List (List Key)} {rows : Nat}
    {columns : List (Column C)} (hrows : rowCount matrix = .ok rows)
    (h : List.Forall₂ (fun keys column => decodeKeys C keys = some column) matrix columns) :
    ∀ column ∈ columns, column.length = rows := by
  have hmatrix := (rowCount_eq_ok_iff.mp hrows).2.2
  refine forall_mem_right ((List.forall₂_and_left _ _).mpr ⟨hmatrix, h⟩) ?_
  rintro keys column ⟨hlength, hdecode⟩
  rw [← hlength, ← (decodeKeys_eq_some_iff.mp hdecode).1, List.length_map]

theorem layers_eq_iff {keys : Column C} {responses : List C.Scalar} {column : List (Layer C)}
    (h : keys.length = responses.length) : layers C keys responses = column ↔
      column.map (fun x => (x.key, x.point)) = keys ∧ column.map (·.response) = responses := by
  constructor
  · rintro rfl
    induction keys generalizing responses with
    | nil =>
      obtain rfl := List.length_eq_zero_iff.mp h.symm
      exact ⟨rfl, rfl⟩
    | cons k keys ih =>
      cases responses with
      | nil => cases h
      | cons s responses =>
        obtain ⟨hkeys, hresponses⟩ := ih (Nat.succ.inj h)
        exact ⟨congrArg _ hkeys, congrArg _ hresponses⟩
  · rintro ⟨rfl, rfl⟩
    rw [layers, List.zipWith_map, List.zipWith_self]
    exact List.map_id' column

/-- The layers are those of some keys, with the points that the keys stand for, and of some
responses. -/
structure Decoded (keys responses : List Key) (column : List (Layer C)) : Prop where
  keys_eq : column.map (·.key) = keys
  points_eq : ∀ x ∈ column, C.point? x.key = some x.point
  responses_eq : List.Forall₂ (fun k x => C.scalar? k = some x.response) responses column

theorem decodeColumn_eq_ok_iff {keys responses : List Key} {column : List (Layer C)}
    (h : keys.length = responses.length) :
    decodeColumn C keys responses = .ok column ↔ Decoded keys responses column := by
  have hdecode : decodeColumn C keys responses = .ok column ↔
      decodeKeys C keys = some (column.map fun x => (x.key, x.point)) ∧
        responses.mapM C.scalar? = some (column.map (·.response)) := by
    rw [decodeColumn]
    cases hkeys : decodeKeys C keys with
    | none => simp
    | some points =>
      cases hresponses : responses.mapM C.scalar? with
      | none => simp
      | some scalars =>
        have hlength : points.length = scalars.length := by
          rw [← (Option.mapM_eq_some_iff.mp hresponses).length_eq, ← h,
            ← (decodeKeys_eq_some_iff.mp hkeys).1, List.length_map]
        simp only [Except.ok.injEq, Option.some.injEq, layers_eq_iff hlength]
        exact and_congr eq_comm eq_comm
  rw [hdecode, decodeKeys_eq_some_iff, Option.mapM_eq_some_iff, List.forall₂_map_right_iff,
    List.map_map, List.forall_mem_map]
  exact ⟨fun ⟨⟨hkeys, hpoints⟩, hresponses⟩ => ⟨hkeys, hpoints, hresponses⟩,
    fun ⟨hkeys, hpoints, hresponses⟩ => ⟨⟨hkeys, hpoints⟩, hresponses⟩⟩

abbrev DecodedAll (matrix responses : List (List Key)) (columns : List (List (Layer C))) : Prop :=
  List.Forall₂ (fun x column => Decoded x.1 x.2 column) (matrix.zip responses) columns

theorem length_eq_of_mem_zip {matrix responses : List (List Key)} {rows : Nat}
    (hmatrix : rowCount matrix = .ok rows) (hresponses : ∀ column ∈ responses, column.length = rows) :
    ∀ x ∈ matrix.zip responses, x.1.length = x.2.length := by
  intro x hx
  obtain ⟨hkeys, hresponse⟩ := List.of_mem_zip hx
  rw [(rowCount_eq_ok_iff.mp hmatrix).2.2 _ hkeys, hresponses _ hresponse]

theorem decodeColumns_eq_ok_iff {matrix responses : List (List Key)}
    {columns : List (List (Layer C))}
    (h : ∀ x ∈ matrix.zip responses, x.1.length = x.2.length) :
    decodeColumns C matrix responses = .ok columns ↔ DecodedAll matrix responses columns := by
  induction matrix generalizing responses columns with
  | nil => simp [decodeColumns, DecodedAll, pure, Except.pure, eq_comm]
  | cons keys matrix ih =>
    cases responses with
    | nil => simp [decodeColumns, DecodedAll, pure, Except.pure, eq_comm]
    | cons ss responses =>
      rw [List.zip_cons_cons, List.forall_mem_cons] at h
      rw [decodeColumns, DecodedAll, List.zip_cons_cons, List.forall₂_cons_left_iff]
      simp only [Except.bind_eq_ok_iff, decodeColumn_eq_ok_iff h.1, ih h.2, pure, Except.pure,
        Except.ok.injEq]
      constructor
      · rintro ⟨column, hcolumn, columns, hcolumns, rfl⟩
        exact ⟨column, columns, hcolumn, hcolumns, rfl⟩
      · rintro ⟨column, columns, hcolumn, hcolumns, rfl⟩
        exact ⟨column, hcolumn, columns, hcolumns, rfl⟩

theorem check_eq_ok_iff {message : Key} {matrix : List (List Key)} {s : Signature}
    {linkable : Nat} : check C message matrix s linkable = .ok () ↔ ∃ rows images c columns,
      rowCount matrix = .ok rows ∧ linkable ≤ rows ∧ s.images.length = linkable ∧
        s.responses.length = matrix.length ∧ (∀ column ∈ s.responses, column.length = rows) ∧
          points? C s.images = some images ∧ C.scalar? s.challenge = some c ∧
            decodeColumns C matrix s.responses = .ok columns ∧
              chain C message images c columns = c := by
  constructor
  · intro h
    rw [check] at h
    split at h
    · cases h
    rename_i rows hrows
    split at h
    · cases h
    rename_i himages
    split at h
    · cases h
    rename_i hresponses
    split at h
    · cases h
    rename_i images hpoints
    split at h
    · cases h
    rename_i c hc
    obtain ⟨columns, hcolumns, h⟩ := Except.bind_eq_ok_iff.mp h
    split at h
    · rename_i hchain
      simp only [not_or, Nat.not_lt, not_not, not_exists, not_and] at himages hresponses
      exact ⟨rows, images, c, columns, hrows, himages.1, himages.2, hresponses.1, hresponses.2,
        hpoints, hc, hcolumns, hchain⟩
    · cases h
  · rintro ⟨rows, images, c, columns, hrows, hlinkable, himages, hlength, hresponses, hpoints, hc,
      hcolumns, hchain⟩
    have h₁ : ¬ (rows < linkable ∨ s.images.length ≠ linkable) := by
      simp [hlinkable, himages]
    have h₂ : ¬ (s.responses.length ≠ matrix.length ∨ ∃ c ∈ s.responses, c.length ≠ rows) := by
      simpa [hlength] using hresponses
    simp only [check, hrows, if_neg h₁, if_neg h₂, hpoints, hc]
    exact Except.bind_eq_ok_iff.mpr ⟨columns, hcolumns, by rw [if_pos hchain]; rfl⟩

theorem verify_eq_true_iff {message : Key} {matrix : List (List Key)} {s : Signature}
    {linkable : Nat} :
    verify C message matrix s linkable = true ↔ check C message matrix s linkable = .ok () := by
  rw [verify]
  rcases check C message matrix s linkable with r | ⟨⟩ <;> simp [Except.toBool]

theorem length_images_of_verify {message : Key} {matrix : List (List Key)} {s : Signature}
    {linkable : Nat} (h : verify C message matrix s linkable = true) :
    s.images.length = linkable := by
  obtain ⟨_, _, _, _, -, -, himages, -⟩ := check_eq_ok_iff.mp (verify_eq_true_iff.mp h)
  exact himages

end ConfidentialTx.Mlsag
