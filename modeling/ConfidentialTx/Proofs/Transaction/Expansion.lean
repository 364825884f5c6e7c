import ConfidentialTx.Proofs.Outcome
import ConfidentialTx.Transaction.Expansion

/-! What expansion does, and the transactions that attempts to expand can lead to. -/
namespace ConfidentialTx.Transaction

theorem keyImages_eq_ok_iff {inputs : List Input} {images : List Key} :
    keyImages inputs = .ok images ↔ inputs.map Input.keyImage? = images.map some := by
  induction inputs generalizing images with
  | nil => cases images <;> simp [keyImages]
  | cons i inputs ih =>
    rw [keyImages, List.map_cons]
    cases hi : i.keyImage? with
    | none => cases images <;> simp
    | some k =>
      have hmap : (keyImages inputs).map (k :: ·) = .ok images ↔
          ∃ ks, keyImages inputs = .ok ks ∧ k :: ks = images := by
        cases keyImages inputs <;> simp [Except.map]
      simp only [hmap, ih]
      constructor
      · rintro ⟨ks, hks, rfl⟩
        rw [hks, List.map_cons]
      · intro h
        cases images with
        | nil => cases h
        | cons image images =>
          rw [List.map_cons, List.cons.injEq, Option.some.injEq] at h
          exact ⟨images, h.2, by rw [h.1]⟩

theorem isSome_of_map_keyImage? {inputs : List Input} {images : List Key}
    (h : inputs.map Input.keyImage? = images.map some) : ∀ i ∈ inputs, i.keyImage?.isSome = true := by
  intro i hi
  have himage := List.mem_map_of_mem (f := Input.keyImage?) hi
  rw [h] at himage
  obtain ⟨image, -, hsome⟩ := List.mem_map.mp himage
  rw [← hsome]
  rfl

theorem map_zipWith_right {α β γ : Type} {f : α → β → α} {g : α → γ} {h : β → γ} {as : List α}
    {bs : List β} (hlength : as.length = bs.length) (hfg : ∀ a b, g (f a b) = h b) :
    (List.zipWith f as bs).map g = bs.map h := by
  induction as generalizing bs with
  | nil =>
    rw [List.length_eq_zero_iff.mp hlength.symm]
    rfl
  | cons a as ih =>
    obtain ⟨b, bs, rfl⟩ := List.exists_cons_of_length_eq_add_one hlength.symm
    rw [List.zipWith_cons_cons, List.map_cons, List.map_cons, hfg, ih (by simpa using hlength)]

theorem map_images_zipWith {proofs : List Mlsag.Signature} {images : List Key}
    (h : proofs.length = images.length) :
    (List.zipWith (fun (proof : Mlsag.Signature) image => { proof with images := [image] }) proofs
      images).map (·.images) = images.map fun image => [image] :=
  map_zipWith_right h fun _ _ => rfl

theorem flatMap_images_zipWith {proofs : List Mlsag.Signature} {images : List Key}
    (h : proofs.length = images.length) :
    (List.zipWith (fun proof image => { proof with images := [image] }) proofs images).flatMap
      (·.images) = images := by
  rw [List.flatMap_def, map_images_zipWith h, ← List.flatMap_def, List.flatMap_singleton']

/-- A full signature has one spend proof, which gets all key images, and its rings are listed by
member; any other has a spend proof for each key image. -/
theorem expandSpends_cases {s : Confidential.Signature} {images : List Key}
    {rings : List (List Coin)} {spends : List (List Coin) × List Mlsag.Signature}
    (h : expandSpends s images rings = .ok spends) :
    (s.kind = .full ∧ ∃ proof, s.spendProofs = [proof] ∧
      spends = (byMember (rings.headD []).length rings, [{ proof with images := images }])) ∨
      (s.kind ≠ .full ∧ s.spendProofs.length = images.length ∧
        spends = (rings, List.zipWith (fun proof image => { proof with images := [image] })
          s.spendProofs images)) := by
  rw [expandSpends] at h
  split at h
  · rename_i hfull
    split at h
    · rename_i proof hproof
      cases h
      exact .inl ⟨hfull, proof, hproof, rfl⟩
    · cases h
  · rename_i hkind
    split at h
    · cases h
    · rename_i hlength
      cases h
      exact .inr ⟨hkind, not_not.mp hlength, rfl⟩

theorem flatMap_images_of_expandSpends {s : Confidential.Signature} {images : List Key}
    {rings : List (List Coin)} {spends : List (List Coin) × List Mlsag.Signature}
    (h : expandSpends s images rings = .ok spends) : spends.2.flatMap (·.images) = images := by
  rcases expandSpends_cases h with ⟨-, proof, -, rfl⟩ | ⟨-, hlength, rfl⟩
  · simp
  · exact flatMap_images_zipWith hlength

theorem checkRings_eq_ok_iff {inputs : List Input} {rings : List (List Coin)}
    (h : rings.length = inputs.length) : checkRings inputs rings = .ok () ↔
      List.Forall₂ (fun i ring => ring.length = i.ringSize) inputs rings := by
  induction inputs generalizing rings with
  | nil => simp [checkRings, List.length_eq_zero_iff.mp h]
  | cons i inputs ih =>
    obtain ⟨ring, rings, rfl⟩ := List.exists_cons_of_length_eq_add_one h
    rw [checkRings, List.forall₂_cons]
    by_cases hsize : ring.length = i.ringSize
    · rw [if_neg (not_not.mpr hsize), ih (by simpa using h)]
      simp [hsize]
    · simp [hsize]

theorem expandSignature_eq_ok_iff {b : Body} {s s' : Confidential.Signature}
    {rings : List (List Coin)} : expandSignature b s rings = .ok s' ↔ ∃ images mixin spends,
      keyImages b.inputs = .ok images ∧ uniformMixin b.inputs = .ok mixin ∧
        rings.length = b.inputs.length ∧ checkRings b.inputs rings = .ok () ∧
          s.outputs.length = b.outputs.length ∧ expandSpends s images rings = .ok spends ∧
            s' = { s with
              message := b.hash
              rings := spends.1
              outputs := withDestinations s.outputs b.outputs
              spendProofs := spends.2 } := by
  simp only [expandSignature, Except.bind_eq_ok_iff]
  constructor
  · rintro ⟨images, himages, mixin, hmixin, h⟩
    split at h
    · cases h
    rename_i hrings
    obtain ⟨⟨⟩, hsizes, h⟩ := Except.bind_eq_ok_iff.mp h
    split at h
    · cases h
    rename_i houtputs
    obtain ⟨spends, hspends, h⟩ := Except.bind_eq_ok_iff.mp h
    cases h
    rw [not_not] at hrings houtputs
    exact ⟨images, mixin, spends, himages, hmixin, hrings, hsizes, houtputs, hspends, rfl⟩
  · rintro ⟨images, mixin, spends, himages, hmixin, hrings, hsizes, houtputs, hspends, rfl⟩
    refine ⟨images, himages, mixin, hmixin, ?_⟩
    rw [if_neg (not_not.mpr hrings)]
    refine Except.bind_eq_ok_iff.mpr ⟨(), hsizes, ?_⟩
    rw [if_neg (not_not.mpr houtputs)]
    exact Except.bind_eq_ok_iff.mpr ⟨spends, hspends, rfl⟩

theorem expand_cases {t t' : Transaction} {rings : List (List Coin)} (h : t.expand rings = .ok t') :
    ((∀ s, t.signatures = .confidential s → s.kind = .null) ∧ t' = { t with state := .expanded }) ∨
      ∃ s s', t.signatures = .confidential s ∧ s.kind ≠ .null ∧
        expandSignature t.body s rings = .ok s' ∧
          t' = { t with signatures := .confidential s', state := .expanded } := by
  rw [expand] at h
  split at h
  · rename_i hring
    cases h
    exact .inl ⟨fun s hs => by simp [hring] at hs, rfl⟩
  · rename_i s hs
    split at h
    · rename_i hnull
      cases h
      refine .inl ⟨fun s' hs' => ?_, rfl⟩
      rw [hs] at hs'
      cases hs'
      exact hnull
    · rename_i hnull
      obtain ⟨s', hs', h⟩ := Except.bind_eq_ok_iff.mp h
      cases h
      exact .inr ⟨s, s', hs, hnull, hs', rfl⟩

end ConfidentialTx.Transaction
