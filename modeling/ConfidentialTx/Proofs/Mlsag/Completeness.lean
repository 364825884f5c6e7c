import ConfidentialTx.Mlsag.Signing
import ConfidentialTx.Proofs.Group.Response
import ConfidentialTx.Proofs.Mlsag.Acceptance

/-! Layered ring signatures are accepted if they were made with the secrets of a whole column. The
chain of challenges is followed from the first column to the signer's, through it, and on to the
last one, where it has come back to its start. -/
namespace ConfidentialTx.Mlsag

open KeyGroup.Responsive

variable {C : KeyGroup}

/-- With these responses the challenge `c` turns into `last` after some columns. -/
structure Leads (message : Key) (images : List C.Point) (c : C.Scalar) (columns : List (Column C))
    (responses : List (List C.Scalar)) (last : C.Scalar) : Prop where
  lengths : List.Forall₂ (fun column ss => ss.length = column.length) columns responses
  chain_eq : chain C message images c (List.zipWith (layers C) columns responses) = last

variable {message : Key} {images : List C.Point}

theorem Leads.append {c₁ c₂ c₃ : C.Scalar} {columns₁ columns₂ : List (Column C)}
    {responses₁ responses₂ : List (List C.Scalar)}
    (h₁ : Leads message images c₁ columns₁ responses₁ c₂)
    (h₂ : Leads message images c₂ columns₂ responses₂ c₃) :
    Leads message images c₁ (columns₁ ++ columns₂) (responses₁ ++ responses₂) c₃ := by
  obtain ⟨hl₁, rfl⟩ := h₁
  obtain ⟨hl₂, rfl⟩ := h₂
  refine ⟨List.rel_append hl₁ hl₂, ?_⟩
  rw [List.zipWith_append hl₁.length_eq, chain, List.foldl_append]
  rfl

theorem leads_of_simulate {c last : C.Scalar} {columns : List (Column C)}
    {responses : List (List Key)}
    (h : (simulate C message images c columns).Yields (responses, last)) :
    ∃ ss, responses = ss.map (·.map C.scalarKey) ∧ Leads message images c columns ss last := by
  induction columns generalizing c responses with
  | nil =>
    have he := Draw.yields_pure_iff.mp h
    rw [Prod.mk.injEq] at he
    obtain ⟨rfl, rfl⟩ := he
    exact ⟨[], rfl, .nil, rfl⟩
  | cons column columns ih =>
    obtain ⟨ss, hss, h⟩ := h.of_bind
    obtain ⟨⟨rest, last'⟩, hrest, h⟩ := h.of_bind
    have he := Draw.yields_pure_iff.mp h
    rw [Prod.mk.injEq] at he
    obtain ⟨rfl, rfl⟩ := he
    obtain ⟨sss, rfl, hlengths, hchain⟩ := ih hrest
    exact ⟨ss :: sss, rfl, .cons hss.length_scalars hlengths, hchain⟩

/-- The secrets are the logarithms of the points of a column. -/
def Owns (secrets : List C.Scalar) (column : Column C) : Prop :=
  List.Forall₂ (fun k x => k.2 = C.smulBase x) column secrets

variable (C) in
abbrev OwnsKeys (secrets : List C.Scalar) (keys : List Key) : Prop :=
  List.Forall₂ (fun k x => C.point? k = some (C.smulBase x)) keys secrets

theorem owns_of_decodeKeys {keys : List Key} {column : Column C} {secrets : List C.Scalar}
    (h : decodeKeys C keys = some column)
    (hkeys : OwnsKeys C secrets keys) :
    Owns secrets column := by
  obtain ⟨rfl, hpoints⟩ := decodeKeys_eq_some_iff.mp h
  have hlogs := List.forall₂_map_left_iff.mp hkeys
  refine ((List.forall₂_and_left _ _).mpr ⟨hpoints, hlogs⟩).imp ?_
  rintro k x ⟨hk, hx⟩
  rw [hk] at hx
  exact Option.some.inj hx

theorem take_append_cons_drop {α : Type} {as : List α} {i : ℕ} {a : α} (h : as[i]? = some a) :
    as.take i ++ a :: as.drop (i + 1) = as := by
  obtain ⟨hlt, rfl⟩ := List.getElem?_eq_some_iff.mp h
  simp

variable (C) in
def respond (c : C.Scalar) (nonces secrets : List C.Scalar) : List C.Scalar :=
  List.zipWith (fun a x => C.scalarMulSub c x a) nonces secrets

theorem signBetween_of_sign {matrix : List (List Key)} {secrets : List C.Scalar}
    {index linkable : ℕ} {s : Signature}
    (h : (sign C message matrix secrets index linkable).Yields s) :
    rowCount matrix = .ok secrets.length ∧ linkable ≤ secrets.length ∧ ∃ columns own,
      matrix.mapM (decodeKeys C) = some columns ∧ columns[index]? = some own ∧
        (signBetween C message linkable secrets (columns.take index) own
          (columns.drop (index + 1))).Yields s := by
  obtain ⟨rows, hrows, h⟩ := h.of_bind
  split at h
  · exact absurd h Draw.not_yields_throw
  rename_i hsecrets
  split at h
  · exact absurd h Draw.not_yields_throw
  rename_i hindex
  split at h
  · exact absurd h Draw.not_yields_throw
  rename_i hlinkable
  split at h
  · exact absurd h Draw.not_yields_throw
  rename_i columns hcolumns
  have hlength := (Option.mapM_eq_some_iff.mp hcolumns).length_eq
  have hown : columns[index]? = some (columns.getD index []) := by
    rw [List.getD_eq_getElem?_getD, List.getElem?_eq_getElem (by omega), Option.getD_some]
  rw [not_not] at hsecrets
  rw [hsecrets]
  exact ⟨hrows.of_lift, by omega, columns, _, hcolumns, hown, h⟩

theorem lengths_of_sign {matrix : List (List Key)} {secrets : List C.Scalar} {index linkable : ℕ}
    {s : Signature} (h : (sign C message matrix secrets index linkable).Yields s) :
    s.responses.length = matrix.length ∧
      ∀ column ∈ s.responses, column.length = secrets.length := by
  obtain ⟨hrows, -, columns, own, hcolumns, hown, h⟩ := signBetween_of_sign h
  have hall := Option.mapM_eq_some_iff.mp hcolumns
  have hlengths := length_column_of_rowCount hrows hall
  have hsplit := take_append_cons_drop hown
  obtain ⟨nonces, hnonces, h⟩ := h.of_bind
  obtain ⟨⟨after, first⟩, hafter, h⟩ := h.of_bind
  obtain ⟨⟨before, last⟩, hbefore, h⟩ := h.of_bind
  obtain ⟨ssAfter, rfl, hafterLengths, -⟩ := leads_of_simulate hafter
  obtain ⟨ssBefore, rfl, hbeforeLengths, -⟩ := leads_of_simulate hbefore
  have hs := Draw.yields_pure_iff.mp h
  have hmap : ∀ (column : Column C) (ss : List C.Scalar), ss.length = column.length →
      (ss.map C.scalarKey).length = column.length := fun column ss hlength => by
    rw [List.length_map, hlength]
  have hownLength : own.length = secrets.length := hlengths own (List.mem_of_getElem? hown)
  have hresponses : List.Forall₂ (fun column (keys : List Key) => keys.length = column.length)
      columns s.responses := by
    rw [← hsplit, hs]
    refine List.rel_append (List.forall₂_map_right_iff.mpr (hbeforeLengths.imp hmap))
      (.cons ?_ (List.forall₂_map_right_iff.mpr (hafterLengths.imp hmap)))
    rw [List.length_zipWith, hnonces.length_scalars, hownLength, Nat.min_self]
  refine ⟨by rw [← hresponses.length_eq, hall.length_eq], ?_⟩
  refine forall_mem_right ((List.forall₂_and_left _ _).mpr ⟨hlengths, hresponses⟩) ?_
  rintro column keys ⟨hcolumn, hkeys⟩
  rw [hkeys, hcolumn]

variable [KeyGroup.Responsive C]

/-- The signer's column adds the same keys to the digest with its responses as with its nonces. -/
theorem columnKeys_respond {column : Column C} {secrets : List C.Scalar} (h : Owns secrets column)
    (c : C.Scalar) (linkable : ℕ) (nonces : List C.Scalar) :
    columnKeys C c (keyImages C linkable (column.map (·.1)) secrets)
      (layers C column (respond C c nonces secrets)) =
        nonceKeys C linkable (column.map (·.1)) nonces := by
  -- The key images end before the column does, so their number changes along with the column.
  induction h generalizing linkable nonces with
  | nil => cases linkable <;> simp [layers, columnKeys, nonceKeys]
  | @cons k x column secrets hk _ ih =>
    cases nonces with
    | nil => cases linkable <;> simp [layers, respond, columnKeys, nonceKeys]
    | cons a nonces =>
      have hleft : Layer.left C c ⟨k.1, k.2, C.scalarMulSub c x a⟩ = C.smulBase a := by
        rw [Layer.left, hk, smulAddBase_response]
      cases linkable with
      | zero =>
        have hrest := ih 0 nonces
        simp only [keyImages, List.take_zero, List.zipWith_nil_left, layers, respond] at hrest ⊢
        simp only [List.zipWith_cons_cons, columnKeys, hleft, hrest, List.map_cons, nonceKeys]
      | succ linkable =>
        have hrest := ih linkable nonces
        have hright : Layer.right C c (C.smul x (C.hashToPoint k.1))
            ⟨k.1, k.2, C.scalarMulSub c x a⟩ = C.smul a (C.hashToPoint k.1) := by
          rw [Layer.right, smulAdd_response]
        simp only [keyImages, layers, respond] at hrest ⊢
        simp only [List.map_cons, List.take_succ_cons, List.zipWith_cons_cons, columnKeys, hleft,
          hright, hrest, nonceKeys]

/-- The signer's own column continues the chain with the digest of the nonces. -/
theorem leads_respond {column : Column C} {secrets nonces : List C.Scalar} {linkable : ℕ}
    (h : Owns secrets column) (hnonces : nonces.length = column.length) (c : C.Scalar) :
    Leads message (keyImages C linkable (column.map (·.1)) secrets) c [column]
      [respond C c nonces secrets]
      (C.hashKeys (message :: nonceKeys C linkable (column.map (·.1)) nonces)) := by
  refine ⟨.cons ?_ .nil, ?_⟩
  · have hsecrets := h.length_eq
    simp [respond, hnonces, hsecrets]
  · simp [chain, nextChallenge, columnKeys_respond h]

theorem leads_of_signBetween {linkable : ℕ} {secrets : List C.Scalar} {own : Column C}
    {before after : List (Column C)} {s : Signature} (hown : Owns secrets own)
    (h : (signBetween C message linkable secrets before own after).Yields s) :
    ∃ c responses, s.challenge = C.scalarKey c ∧ s.responses = responses.map (·.map C.scalarKey) ∧
      s.images = (keyImages C linkable (own.map (·.1)) secrets).map C.pointKey ∧
        Leads message (keyImages C linkable (own.map (·.1)) secrets) c (before ++ own :: after)
          responses c := by
  obtain ⟨nonces, hnonces, h⟩ := h.of_bind
  obtain ⟨⟨after', first⟩, hafter, h⟩ := h.of_bind
  obtain ⟨⟨before', last⟩, hbefore, h⟩ := h.of_bind
  -- The signer ran through the columns after its own first and only then through those before.
  obtain ⟨ssAfter, hssAfter, hleadsAfter⟩ := leads_of_simulate hafter
  obtain ⟨ssBefore, hssBefore, hleadsBefore⟩ := leads_of_simulate hbefore
  rw [Draw.yields_pure_iff.mp h]
  refine ⟨first, ssBefore ++ respond C last nonces secrets :: ssAfter, rfl, ?_, rfl, ?_⟩
  · simp [hssBefore, hssAfter, respond, List.map_zipWith]
  · exact hleadsBefore.append ((leads_respond hown hnonces.length_scalars last).append hleadsAfter)

theorem decodeColumns_eq_ok {matrix : List (List Key)} {columns : List (Column C)}
    {responses : List (List C.Scalar)}
    (h : List.Forall₂ (fun keys column => decodeKeys C keys = some column) matrix columns)
    (hl : columns.length = responses.length) :
    decodeColumns C matrix (responses.map (·.map C.scalarKey)) =
      .ok (List.zipWith (layers C) columns responses) := by
  induction h generalizing responses with
  | nil => rfl
  | cons hkeys _ ih =>
    cases responses with
    | nil => cases hl
    | cons ss responses =>
      have hscalars : (ss.map C.scalarKey).mapM C.scalar? = some ss := by
        rw [Option.mapM_eq_some_iff, List.forall₂_map_left_iff, List.forall₂_same]
        exact fun s _ => scalar?_scalarKey s
      have hrest := ih (by simpa using hl)
      rw [List.map_cons, decodeColumns, hrest, decodeColumn, hkeys, List.zipWith_cons_cons]
      simp only [hscalars]
      rfl

/-- A signature that was made with the logarithms of a column is accepted. -/
theorem check_sign {matrix : List (List Key)} {secrets : List C.Scalar} {index linkable : ℕ}
    {s : Signature} (h : (sign C message matrix secrets index linkable).Yields s)
    (hkeys : ∀ keys, matrix[index]? = some keys → OwnsKeys C secrets keys) :
    s.images.length = linkable ∧ check C message matrix s linkable = .ok () := by
  obtain ⟨hcount, hresponseLengths⟩ := lengths_of_sign h
  obtain ⟨hrows, hlinkable, columns, own, hcolumns, hown, h⟩ := signBetween_of_sign h
  have hall := Option.mapM_eq_some_iff.mp hcolumns
  obtain ⟨keys, hindex, hdecode⟩ := exists_getElem?_of_forall₂ hall hown
  have howns := hkeys keys hindex
  obtain ⟨c, responses, hc, hresponses, himages, hleads⟩ :=
    leads_of_signBetween (owns_of_decodeKeys hdecode howns) h
  rw [take_append_cons_drop hown] at hleads
  have hlength : s.images.length = linkable := by
    have hfst := (decodeKeys_eq_some_iff.mp hdecode).1
    have hkeysLength := howns.length_eq
    rw [himages, List.length_map, keyImages, hfst, List.length_zipWith, List.length_take]
    omega
  have hpoints : points? C s.images =
      some (keyImages C linkable (own.map (·.1)) secrets) := by
    rw [points?, himages, Option.mapM_eq_some_iff, List.forall₂_map_left_iff, List.forall₂_same]
    exact fun P _ => point?_pointKey P
  refine ⟨hlength, check_eq_ok_iff.mpr ⟨_, _, c, _, hrows, hlinkable, hlength, hcount,
    hresponseLengths, hpoints, ?_, ?_, hleads.chain_eq⟩⟩
  · rw [hc, scalar?_scalarKey]
  · rw [hresponses]
    exact decodeColumns_eq_ok hall hleads.lengths.length_eq

end ConfidentialTx.Mlsag
