import ConfidentialTx.Mlsag.InPlace
import ConfidentialTx.Proofs.Mlsag.Acceptance

/-! One buffer for all columns. The places of the layers tile the buffer behind the message, so that
nothing of the column before is left, and what is digested are the keys of the column put together
anew. The decision is that of the plain chain of challenges, and all that is looked up is there. -/
namespace ConfidentialTx.Mlsag

/-! ## Overwriting parts of a buffer -/

/-- A step replaces the keys from a place on by a block of keys, whatever stands there and around
it. -/
def Overwrites (step : Buffer → Option Buffer) (place : ℕ) (block : List Key) : Prop :=
  ∀ before old after : List Key, before.length = place → old.length = block.length →
    step (before ++ (old ++ after)).toArray = some (before ++ (block ++ after)).toArray

theorem overwrites_write (place : ℕ) (k : Key) :
    Overwrites (fun b => b.write place k) place [k] := by
  rintro before old after rfl hold
  obtain ⟨x, rfl⟩ := List.length_eq_one_iff.mp hold
  have hplace : before.length < (before ++ ([x] ++ after)).toArray.size := by simp
  simp only [Buffer.write, dif_pos hplace]
  simp

theorem overwrites_pure (place : ℕ) : Overwrites pure place [] := by
  intro before old after _ hold
  rw [List.length_eq_zero_iff.mp hold]
  rfl

theorem Overwrites.bind {f g : Buffer → Option Buffer} {place : ℕ} {ks ls : List Key}
    (hf : Overwrites f place ks) (hg : Overwrites g (place + ks.length) ls) :
    Overwrites (fun b => f b >>= g) place (ks ++ ls) := by
  intro before old after hbefore hold
  rw [List.length_append] at hold
  have hsplit : before ++ (old ++ after) =
      before ++ (old.take ks.length ++ (old.drop ks.length ++ after)) := by
    rw [← List.append_assoc (old.take _), List.take_append_drop]
  have hjoin : before ++ (ks ++ (old.drop ks.length ++ after)) =
      (before ++ ks) ++ (old.drop ks.length ++ after) := by
    rw [List.append_assoc]
  simp only [hsplit]
  rw [hf before _ _ hbefore (by rw [List.length_take]; omega), hjoin, Option.bind_eq_bind,
    Option.bind_some, hg (before ++ ks) _ after (by rw [List.length_append, hbefore])
      (by rw [List.length_drop]; omega)]
  simp only [List.append_assoc]

theorem overwrites_foldlM {step : Buffer → ℕ → Option Buffer} {place j n : ℕ}
    {blocks : List (List Key)} (width : ℕ) (hlength : blocks.length = n)
    (hstep : ∀ i block, blocks[i]? = some block → block.length = width ∧
      Overwrites (fun b => step b (j + i)) (width * i + place) block) :
    Overwrites (fun b => (List.range' j n).foldlM step b) place blocks.flatten := by
  subst hlength
  induction blocks generalizing place j with
  | nil => exact overwrites_pure place
  | cons block blocks ih =>
    obtain ⟨hwidth, hfirst⟩ := hstep 0 block rfl
    have hfirst : Overwrites (fun b => step b j) place block := by simpa using hfirst
    have hrest : Overwrites (fun b => (List.range' (j + 1) blocks.length).foldlM step b)
        (place + block.length) blocks.flatten := ih fun i next hi => by
      have hplace : width * (i + 1) + place = width * i + (place + block.length) := by
        rw [hwidth, Nat.mul_succ]
        omega
      rw [← hplace, Nat.add_assoc, Nat.add_comm 1]
      exact hstep (i + 1) next hi
    exact hfirst.bind hrest

variable {C : KeyGroup} {c : C.Scalar} {images : List C.Point} {column : List (Layer C)}

/-! ## One column -/

section

variable (C c)

def linkableBlock (I : C.Point) (x : Layer C) : List Key :=
  [x.key, C.pointKey (x.left C c), C.pointKey (x.right C c I)]

def plainBlock (x : Layer C) : List Key :=
  [x.key, C.pointKey (x.left C c)]

/-- The keys of a column, put together anew: the blocks of the linkable layers, and then those of the
other ones. -/
def freshKeys (linkable : ℕ) (images : List C.Point) (column : List (Layer C)) : List Key :=
  (List.zipWith (linkableBlock C c) images (column.take linkable)).flatten ++
    ((column.drop linkable).map (plainBlock C c)).flatten

end

theorem length_flatten_of_width {blocks : List (List Key)} (width : ℕ)
    (h : ∀ block ∈ blocks, block.length = width) : blocks.flatten.length = width * blocks.length := by
  rw [List.length_flatten, List.map_congr_left h, List.map_const', List.sum_replicate_nat,
    Nat.mul_comm]

variable {I : C.Point} {x : Layer C} {j linkable rows : ℕ}

theorem columnKeys_eq_freshKeys (himages : images.length = linkable)
    (hlinkable : linkable ≤ column.length) :
    columnKeys C c images column = freshKeys C c linkable images column := by
  subst himages
  fun_induction columnKeys C c images column with
  | case1 images => simp [freshKeys]
  | case2 x column ih => simpa [freshKeys, plainBlock] using ih (Nat.zero_le _)
  | case3 I images x column ih =>
    simpa [freshKeys, linkableBlock] using ih (Nat.le_of_succ_le_succ hlinkable)

theorem overwrites_writeLinkable (hI : images[j]? = some I) (hx : column[j]? = some x) :
    Overwrites (fun b => writeLinkable C images c (column.map (·.key)) (column.map (·.point))
      (column.map (·.response)) b j) (3 * j + 1) (linkableBlock C c I x) := by
  simp only [writeLinkable, List.getElem?_map, hx, hI, Option.map_some, Option.bind_eq_bind,
    Option.bind_some]
  exact (overwrites_write _ _).bind ((overwrites_write _ _).bind (overwrites_write _ _))

theorem overwrites_writePlain (hx : column[j]? = some x) :
    Overwrites (fun b => writePlain C linkable c (column.map (·.key)) (column.map (·.point))
      (column.map (·.response)) b j) (3 * linkable + 2 * (j - linkable) + 1)
      (plainBlock C c x) := by
  simp only [writePlain, List.getElem?_map, hx, Option.map_some, Option.bind_eq_bind,
    Option.bind_some]
  exact (overwrites_write _ _).bind (overwrites_write _ _)

theorem overwrites_linkable (himages : images.length = linkable)
    (hlinkable : linkable ≤ column.length) :
    Overwrites (fun b => (List.range linkable).foldlM (writeLinkable C images c
      (column.map (·.key)) (column.map (·.point)) (column.map (·.response))) b) 1
      (List.zipWith (linkableBlock C c) images (column.take linkable)).flatten := by
  rw [List.range_eq_range']
  refine overwrites_foldlM 3 (by simp [himages, hlinkable]) fun i block hi => ?_
  obtain ⟨I, x, hI, hx, rfl⟩ := List.getElem?_zipWith_eq_some.mp hi
  obtain ⟨hi, -⟩ := List.getElem?_eq_some_iff.mp hI
  rw [List.getElem?_take_of_lt (by rwa [← himages])] at hx
  rw [Nat.zero_add]
  exact ⟨rfl, overwrites_writeLinkable hI hx⟩

theorem overwrites_plain (hrows : column.length = rows) :
    Overwrites (fun b => (List.range' linkable (rows - linkable)).foldlM (writePlain C linkable c
      (column.map (·.key)) (column.map (·.point)) (column.map (·.response))) b) (1 + 3 * linkable)
      ((column.drop linkable).map (plainBlock C c)).flatten := by
  refine overwrites_foldlM 2 (by simp [hrows]) fun i block hi => ?_
  rw [List.getElem?_map, Option.map_eq_some_iff] at hi
  obtain ⟨x, hx, rfl⟩ := hi
  rw [List.getElem?_drop] at hx
  have hplace : 2 * i + (1 + 3 * linkable) = 3 * linkable + 2 * (linkable + i - linkable) + 1 := by
    omega
  rw [hplace]
  exact ⟨rfl, overwrites_writePlain hx⟩

theorem length_linkable (himages : images.length = linkable) (hlinkable : linkable ≤ column.length) :
    (List.zipWith (linkableBlock C c) images (column.take linkable)).flatten.length =
      3 * linkable := by
  rw [length_flatten_of_width 3 fun block hblock => ?_]
  · simp [himages, hlinkable]
  · obtain ⟨i, hi⟩ := List.mem_iff_getElem?.mp hblock
    obtain ⟨I, x, -, -, rfl⟩ := List.getElem?_zipWith_eq_some.mp hi
    rfl

theorem length_plain :
    ((column.drop linkable).map (plainBlock C c)).flatten.length =
      2 * (column.length - linkable) := by
  rw [length_flatten_of_width 2 fun block hblock => ?_]
  · simp
  · obtain ⟨x, -, rfl⟩ := List.mem_map.mp hblock
    rfl

theorem overwrites_writeColumn (hrows : column.length = rows) (himages : images.length = linkable)
    (hlinkable : linkable ≤ rows) :
    Overwrites (writeColumn C rows linkable images c (column.map (·.key)) (column.map (·.point))
      (column.map (·.response))) 1 (freshKeys C c linkable images column) := by
  subst hrows
  refine (overwrites_linkable himages hlinkable).bind ?_
  rw [length_linkable himages hlinkable]
  exact overwrites_plain rfl

theorem length_freshKeys (hrows : column.length = rows) (himages : images.length = linkable)
    (hlinkable : linkable ≤ rows) :
    (freshKeys C c linkable images column).length = 3 * linkable + 2 * (rows - linkable) := by
  subst hrows
  rw [freshKeys, List.length_append, length_linkable himages hlinkable, length_plain]

/-- A column leaves nothing of the one before in the buffer. -/
theorem writeColumn_eq (message : Key) {old : List Key} (hrows : column.length = rows)
    (himages : images.length = linkable) (hlinkable : linkable ≤ rows)
    (hold : old.length = 3 * linkable + 2 * (rows - linkable)) :
    writeColumn C rows linkable images c (column.map (·.key)) (column.map (·.point))
      (column.map (·.response)) (message :: old).toArray =
      some (message :: freshKeys C c linkable images column).toArray := by
  have hwrite := overwrites_writeColumn (c := c) hrows himages hlinkable [message] old [] rfl
    (hold.trans (length_freshKeys hrows himages hlinkable).symm)
  simpa using hwrite

/-! ## All columns -/

theorem exists_layers {keys : List Key} {points : List C.Point} {scalars : List C.Scalar}
    (hpoints : points.length = keys.length) (hscalars : scalars.length = keys.length) :
    ∃ column : List (Layer C), layers C (keys.zip points) scalars = column ∧
      column.map (·.key) = keys ∧ column.map (·.point) = points ∧
        column.map (·.response) = scalars := by
  refine ⟨_, rfl, ?_⟩
  obtain ⟨hzip, hresponse⟩ := (layers_eq_iff (by simp [hpoints, hscalars])).mp
    (rfl : layers C (keys.zip points) scalars = _)
  have hkey := congrArg (List.map Prod.fst) hzip
  have hpoint := congrArg (List.map Prod.snd) hzip
  rw [List.map_map, List.map_fst_zip (Nat.le_of_eq hpoints.symm)] at hkey
  rw [List.map_map, List.map_snd_zip (Nat.le_of_eq hpoints)] at hpoint
  exact ⟨hkey, hpoint, hresponse⟩

theorem chainInPlace_eq {message : Key} {old : List Key} {matrix responses : List (List Key)}
    (hmatrix : ∀ keys ∈ matrix, keys.length = rows)
    (hresponses : ∀ column ∈ responses, column.length = rows)
    (himages : images.length = linkable) (hlinkable : linkable ≤ rows)
    (hold : old.length = 3 * linkable + 2 * (rows - linkable)) :
    chainInPlace C rows linkable images (message :: old).toArray c matrix responses =
      some ((decodeColumns C matrix responses).map (chain C message images c)) := by
  induction matrix generalizing responses c old with
  | nil => rfl
  | cons keys matrix ih =>
    cases responses with
    | nil => rfl
    | cons ss responses =>
      obtain ⟨hkeys, hrest⟩ := List.forall_mem_cons.mp hmatrix
      obtain ⟨hss, hresponses⟩ := List.forall_mem_cons.mp hresponses
      rw [chainInPlace, decodeColumns, decodeColumn, decodeKeys]
      cases hpoints : points? C keys with
      | none => rfl
      | some points =>
        cases hscalars : ss.mapM C.scalar? with
        | none => rfl
        | some scalars =>
          have hlength : keys.length = points.length :=
            (Option.mapM_eq_some_iff.mp hpoints).length_eq
          have hlength' : ss.length = scalars.length :=
            (Option.mapM_eq_some_iff.mp hscalars).length_eq
          obtain ⟨column, hcolumn, rfl, rfl, rfl⟩ := exists_layers (C := C) hlength.symm
            (hlength'.symm.trans (hss.trans hkeys.symm))
          rw [List.length_map] at hkeys
          have hwrite := writeColumn_eq (c := c) message hkeys himages hlinkable hold
          have hnext := length_freshKeys (c := c) hkeys himages hlinkable
          simp only [Option.map_some, hcolumn, hwrite, Option.bind_eq_bind, Option.bind_some,
            ih hrest hresponses hnext]
          rw [← columnKeys_eq_freshKeys himages (Nat.le_trans hlinkable (Nat.le_of_eq hkeys.symm))]
          cases decodeColumns C matrix responses <;> rfl

theorem start_eq (message : Key) (rows linkable : ℕ) : Buffer.start message rows linkable =
    some (message ::
      List.replicate (3 * linkable + 2 * (rows - linkable)) Key.zero).toArray := by
  have hsize : Buffer.size rows linkable = 3 * linkable + 2 * (rows - linkable) + 1 := by
    rw [Buffer.size, Nat.add_assoc, Nat.add_comm]
  rw [Buffer.start, hsize, ← List.toArray_replicate, List.replicate_succ]
  exact overwrites_write 0 message [] [Key.zero] _ rfl rfl

theorem checkInPlace_eq (message : Key) (matrix : List (List Key)) (s : Signature)
    (linkable : ℕ) : checkInPlace C message matrix s linkable =
      some (check C message matrix s linkable) := by
  rw [checkInPlace, check]
  cases hrows : rowCount matrix with
  | error => rfl
  | ok rows =>
    dsimp only
    split_ifs with himages hresponses
    · rfl
    · rfl
    simp only [not_or, Nat.not_lt, not_not, not_exists, not_and] at himages hresponses
    cases hpoints : points? C s.images with
    | none => rfl
    | some images =>
      cases hc : C.scalar? s.challenge with
      | none => rfl
      | some c =>
        have hlength := (Option.mapM_eq_some_iff.mp hpoints).length_eq
        simp only [start_eq, Option.bind_eq_bind, Option.bind_some]
        rw [chainInPlace_eq (rowCount_eq_ok_iff.mp hrows).2.2 hresponses.2
          (hlength.symm.trans himages.2) himages.1 List.length_replicate]
        cases decodeColumns C matrix s.responses <;> rfl

/-! ## The plain chain -/

variable {message : Key} {matrix : List (List Key)} {s : Signature}
  {columns : List (List (Layer C))}

/-- The matrix, the signature and what they decode to have the right dimensions, and challenges that
are each the digest of the message and of one column, put together anew, end where they began. -/
structure PlainChain (message : Key) (matrix : List (List Key)) (s : Signature) (linkable rows : ℕ)
    (images : List C.Point) (columns : List (List (Layer C))) (challenge : ℕ → C.Scalar) : Prop where
  matrix_ne_nil : matrix ≠ []
  rows_pos : 0 < rows
  rectangular : ∀ keys ∈ matrix, keys.length = rows
  linkable_le : linkable ≤ rows
  images_length : s.images.length = linkable
  responses_length : s.responses.length = matrix.length
  responses_rectangular : ∀ responses ∈ s.responses, responses.length = rows
  images_decode : List.Forall₂ (fun k I => C.point? k = some I) s.images images
  columns_decode : DecodedAll matrix s.responses columns
  start : C.scalar? s.challenge = some (challenge 0)
  step : ∀ i column, columns[i]? = some column → challenge (i + 1) =
    C.hashKeys (message :: freshKeys C (challenge i) linkable images column)
  closed : challenge matrix.length = challenge 0

theorem nextChallenge_eq_hashKeys (himages : images.length = linkable)
    (hlinkable : linkable ≤ column.length) : nextChallenge C message images c column =
      C.hashKeys (message :: freshKeys C c linkable images column) := by
  rw [nextChallenge, columnKeys_eq_freshKeys himages hlinkable]

theorem chain_take_succ {i : ℕ} (hcolumn : columns[i]? = some column) :
    chain C message images c (columns.take (i + 1)) =
      nextChallenge C message images (chain C message images c (columns.take i)) column := by
  rw [List.take_add_one, hcolumn, chain, List.foldl_append]
  rfl

theorem eq_chain_take {challenge : ℕ → C.Scalar} (hstep : ∀ i column, columns[i]? = some column →
      challenge (i + 1) = nextChallenge C message images (challenge i) column) {i : ℕ}
    (hi : i ≤ columns.length) :
    challenge i = chain C message images (challenge 0) (columns.take i) := by
  induction i with
  | zero => rfl
  | succ i ih =>
    have hcolumn : columns[i]? = some columns[i] := List.getElem?_eq_getElem hi
    rw [hstep i _ hcolumn, ih (Nat.le_of_succ_le hi), chain_take_succ hcolumn]

theorem DecodedAll.length_column {matrix responses : List (List Key)} {i : ℕ}
    (h : DecodedAll matrix responses columns) (hmatrix : ∀ keys ∈ matrix, keys.length = rows)
    (hcolumn : columns[i]? = some column) : column.length = rows := by
  obtain ⟨x, hx, hdecoded⟩ := exists_getElem?_of_forall₂ h hcolumn
  have hkeys := List.mem_of_getElem? (List.getElem?_zip_eq_some.mp hx).1
  rw [← hmatrix _ hkeys, ← hdecoded.keys_eq, List.length_map]

theorem DecodedAll.length_columns {matrix responses : List (List Key)}
    (h : DecodedAll matrix responses columns) (hlength : responses.length = matrix.length) :
    columns.length = matrix.length := by
  rw [← h.length_eq, List.length_zip, hlength, Nat.min_self]

theorem check_eq_ok_iff_plainChain :
    check C message matrix s linkable = .ok () ↔ ∃ rows images columns, ∃ challenge : ℕ → C.Scalar,
      PlainChain message matrix s linkable rows images columns challenge := by
  rw [check_eq_ok_iff]
  constructor
  · rintro ⟨rows, images, c, columns, hrows, hlinkable, himages, hlength, hresponses, hpoints, hc,
      hcolumns, hchain⟩
    obtain ⟨hne, hpos, hmatrix⟩ := rowCount_eq_ok_iff.mp hrows
    rw [decodeColumns_eq_ok_iff (length_eq_of_mem_zip hrows hresponses)] at hcolumns
    have hdecode := Option.mapM_eq_some_iff.mp hpoints
    refine ⟨rows, images, columns, fun i => chain C message images c (columns.take i), hne, hpos,
      hmatrix, hlinkable, himages, hlength, hresponses, hdecode, hcolumns, hc, ?_, ?_⟩
    · intro i column hcolumn
      rw [chain_take_succ hcolumn]
      exact nextChallenge_eq_hashKeys (hdecode.length_eq.symm.trans himages)
        (hcolumns.length_column hmatrix hcolumn ▸ hlinkable)
    · rw [← hcolumns.length_columns hlength, List.take_length]
      exact hchain
  · rintro ⟨rows, images, columns, challenge, h⟩
    have hrows := rowCount_eq_ok_iff.mpr ⟨h.matrix_ne_nil, h.rows_pos, h.rectangular⟩
    refine ⟨rows, images, challenge 0, columns, hrows, h.linkable_le, h.images_length,
      h.responses_length, h.responses_rectangular, Option.mapM_eq_some_iff.mpr h.images_decode,
      h.start, (decodeColumns_eq_ok_iff (length_eq_of_mem_zip hrows h.responses_rectangular)).mpr
        h.columns_decode, ?_⟩
    have hstep : ∀ i column, columns[i]? = some column →
        challenge (i + 1) = nextChallenge C message images (challenge i) column := by
      intro i column hcolumn
      rw [h.step i column hcolumn]
      exact (nextChallenge_eq_hashKeys (h.images_decode.length_eq.symm.trans h.images_length)
        (h.columns_decode.length_column h.rectangular hcolumn ▸ h.linkable_le)).symm
    have hlast := eq_chain_take hstep (Nat.le_refl columns.length)
    rw [List.take_length, h.columns_decode.length_columns h.responses_length, h.closed] at hlast
    exact hlast.symm

/-- With one buffer for all columns a signature is decided about as along the plain chain, and
everything that is looked up or overwritten on the way is there. -/
theorem verifyInPlace_eq_plainChain (message : Key) (matrix : List (List Key)) (s : Signature)
    (linkable : ℕ) :
    verifyInPlace C message matrix s linkable = some (verify C message matrix s linkable) ∧
      (verify C message matrix s linkable = true ↔
        ∃ rows images columns, ∃ challenge : ℕ → C.Scalar,
          PlainChain message matrix s linkable rows images columns challenge) := by
  rw [verifyInPlace, checkInPlace_eq, verify_eq_true_iff]
  exact ⟨rfl, check_eq_ok_iff_plainChain⟩

end ConfidentialTx.Mlsag
