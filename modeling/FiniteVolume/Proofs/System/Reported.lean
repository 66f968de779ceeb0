import FiniteVolume.Proofs.Kernel.Coefficients
import FiniteVolume.Proofs.Mesh.Built
import FiniteVolume.Proofs.System.Assembly

/-!
# What edge kernels report

An edge kernel returns one vector for every coefficient and the endpoints that its blocks belong to.
They are a contribution to the vertices of a mesh exactly if they fit it: no vector is shorter than
the list of endpoints, and all endpoints are vertices (`EdgeValues.Fits.exists_contribution`,
`EdgeValues.fits_of_contribution`). If they do not, a value or an entry is looked up that does not
exist. The values of compiled kernels always fit (`EdgeValues.fits_of_eval`).
-/

namespace FiniteVolume

variable {α : Type}

namespace Contribution

/-- A contribution to a system with an equation for each of some vertices. -/
structure InRange (count : Nat) (contribution : Contribution α) : Prop where
  triplets : ∀ triplet ∈ contribution.triplets, triplet.row < count ∧ triplet.col < count
  rhs : ∀ entry ∈ contribution.rhs, entry.1 < count

variable {count : Nat}

/-- Contributions in range are in range together. -/
theorem InRange.sum {contributions : List (Contribution α)}
    (inRange : ∀ contribution ∈ contributions, contribution.InRange count) :
    (sum contributions).InRange count := by
  induction contributions with
  | nil => exact ⟨fun _ member => (nomatch member), fun _ member => (nomatch member)⟩
  | cons first rest ih =>
    obtain ⟨inFirst, inRest⟩ := List.forall_mem_cons.mp inRange
    exact ⟨List.forall_mem_append.mpr ⟨inFirst.triplets, (ih inRest).triplets⟩,
      List.forall_mem_append.mpr ⟨inFirst.rhs, (ih inRest).rhs⟩⟩

/-- What one contribution adds to the right side is added by all of them. -/
theorem mem_rhs_sum {contributions : List (Contribution α)} {contribution : Contribution α}
    (member : contribution ∈ contributions) {entry : Nat × α} (listed : entry ∈ contribution.rhs) :
    entry ∈ (sum contributions).rhs := by
  induction contributions with
  | nil => cases member
  | cons first rest ih =>
    change entry ∈ first.rhs ++ (sum rest).rhs
    apply (List.mem_cons.mp member).elim
    · exact fun isFirst => List.mem_append_left _ (isFirst ▸ listed)
    · exact fun later => List.mem_append_right _ (ih later)

variable [Arithmetic α]

/-- A value in range is written in range. -/
theorem lt_of_mem_tripletUnlessZero {row col : Nat} (inRow : row < count) (inCol : col < count)
    (value : α) : ∀ triplet ∈ tripletUnlessZero row col value,
      triplet.row < count ∧ triplet.col < count := by
  intro triplet member
  rw [tripletUnlessZero] at member
  split at member
  · cases member
  · cases List.mem_singleton.mp member
    exact ⟨inRow, inCol⟩

/-- The block of an edge contributes in range of its ends. -/
theorem inRange_ofEdgeBlock {ends : Ends Nat} (first : ends.first < count)
    (second : ends.second < count) (block : EdgeBlock α) :
    (ofEdgeBlock ends block).InRange count where
  triplets := by
    simp only [ofEdgeBlock, List.forall_mem_append]
    exact ⟨⟨⟨lt_of_mem_tripletUnlessZero first first _,
      lt_of_mem_tripletUnlessZero first second _⟩, lt_of_mem_tripletUnlessZero second first _⟩,
      lt_of_mem_tripletUnlessZero second second _⟩
  rhs := List.forall_mem_cons.mpr ⟨first, List.forall_mem_singleton.mpr second⟩

/-- The blocks of points contribute in range of the points. -/
theorem inRange_ofPointValues {values : PointValues α}
    (inRange : ∀ vertex ∈ values.vertices, vertex < count) :
    (ofPointValues values).InRange count := by
  refine InRange.sum fun contribution member => ?_
  obtain ⟨entry, inside, rfl⟩ := List.mem_map.mp member
  have inVertex := inRange entry.1 (List.of_mem_zip inside).1
  exact ⟨lt_of_mem_tripletUnlessZero inVertex inVertex _,
    List.forall_mem_singleton.mpr inVertex⟩

end Contribution


/-- The values at some edges have a block for every pair of endpoints, all of them vertices. -/
structure EdgeValues.Fits (values : EdgeValues α) (count : Nat) : Prop where
  sizes : ∀ coefficient ∈ values.block.coefficients, values.ends.length ≤ coefficient.size
  ends : ∀ ends ∈ values.ends, ends.first < count ∧ ends.second < count

/-- Two values are picked from the ends if there are both. -/
theorem Ends.exists_mapM_iff {κ ρ : Type} {pick : κ → Option ρ} {ends : Ends κ} :
    (∃ picked, ends.mapM pick = some picked) ↔
      (∃ value, pick ends.first = some value) ∧ ∃ value, pick ends.second = some value := by
  constructor
  · intro ⟨_, picks⟩
    obtain ⟨first, picksFirst, picks⟩ := Option.bind_eq_some_iff.mp picks
    obtain ⟨second, picksSecond, -⟩ := Option.bind_eq_some_iff.mp picks
    exact ⟨⟨first, picksFirst⟩, ⟨second, picksSecond⟩⟩
  · intro ⟨⟨first, picksFirst⟩, ⟨second, picksSecond⟩⟩
    exact ⟨⟨first, second⟩, by rw [mapM, picksFirst, picksSecond]; rfl⟩

/-- A block stands at a position if every one of its coefficients does. -/
theorem EdgeBlock.exists_mapM_getElem?_iff {block : EdgeBlock (Array α)} {position : Nat} :
    (∃ single, (block.mapM fun coefficient => coefficient[position]?) = some single) ↔
      ∀ coefficient ∈ block.coefficients, position < coefficient.size := by
  have parts : (∃ single, (block.mapM fun coefficient => coefficient[position]?) = some single) ↔
      (∃ linear, block.linear.mapM (Ends.mapM fun coefficient => coefficient[position]?) =
        some linear) ∧
      ∃ affine, (block.affine.mapM fun coefficient => coefficient[position]?) = some affine := by
    constructor
    · intro ⟨_, picks⟩
      obtain ⟨linear, picksLinear, picks⟩ := Option.bind_eq_some_iff.mp picks
      obtain ⟨affine, picksAffine, -⟩ := Option.bind_eq_some_iff.mp picks
      exact ⟨⟨linear, picksLinear⟩, ⟨affine, picksAffine⟩⟩
    · intro ⟨⟨linear, picksLinear⟩, ⟨affine, picksAffine⟩⟩
      exact ⟨⟨linear, affine⟩, by rw [mapM, picksLinear, picksAffine]; rfl⟩
  rw [parts, EdgeBlock.forall_coefficients_iff]
  have stands : ∀ coefficient : Array α,
      (∃ value, coefficient[position]? = some value) ↔ position < coefficient.size := by
    intro coefficient
    rw [← Option.isSome_iff_exists, isSome_getElem?]
  simp only [Ends.exists_mapM_iff, stands, and_assoc]

variable [Arithmetic α] {values : EdgeValues α} {edges : List Nat} {count : Nat}
  {contribution : Contribution α}

/-- A contribution is formed from a block at every position. -/
theorem Contribution.ofEdgeValues_eq_ok_iff :
    ofEdgeValues values edges = .ok contribution ↔ values.ends.length = edges.length ∧
      ∃ parts, (values.ends.zipIdx.mapM fun (ends, position) => do
        let block ← Outcome.ofLookup? (values.block.mapM fun coefficient => coefficient[position]?)
        return ofEdgeBlock ends block) = Except.ok parts ∧ contribution = sum parts := by
  rw [ofEdgeValues]
  by_cases complete : values.ends.length = edges.length
  · rw [if_neg (not_not.mpr complete), and_iff_right complete]
    refine Outcome.bind_eq_ok_iff.trans (exists_congr fun parts => and_congr_right fun _ => ?_)
    exact ⟨fun same => (Except.ok.inj same).symm, fun same => congrArg Except.ok same.symm⟩
  · rw [if_pos complete]
    exact ⟨fun answered => absurd answered (Outcome.reject_ne_ok _ _),
      fun both => absurd both.1 complete⟩

namespace EdgeValues

/-- Values that fit a mesh are a contribution to its vertices. -/
theorem Fits.exists_contribution (fits : values.Fits count)
    (complete : values.ends.length = edges.length) :
    ∃ contribution, Contribution.ofEdgeValues values edges = .ok contribution ∧
      contribution.InRange count := by
  obtain ⟨parts, mapped, inRange⟩ : ∃ parts,
      (values.ends.zipIdx.mapM fun (ends, position) => do
        let block ← Outcome.ofLookup? (values.block.mapM fun coefficient => coefficient[position]?)
        return Contribution.ofEdgeBlock ends block) = Except.ok parts ∧
      ∀ (position : Nat) (part : Contribution α), parts[position]? = some part →
        part.InRange count := by
    refine Outcome.exists_mapM_eq_ok fun position pair stands => ?_
    obtain ⟨ends, rfl, standsEnds⟩ : ∃ ends, (ends, position) = pair ∧
        values.ends[position]? = some ends := by
      rw [List.getElem?_zipIdx] at stands
      obtain ⟨ends, standsEnds, same⟩ := Option.map_eq_some_iff.mp stands
      exact ⟨ends, by simpa using same, standsEnds⟩
    obtain ⟨first, second⟩ := fits.ends ends (List.mem_of_getElem? standsEnds)
    have inside : position < values.ends.length := (List.getElem?_eq_some_iff.mp standsEnds).1
    obtain ⟨block, picks⟩ := EdgeBlock.exists_mapM_getElem?_iff.mpr fun coefficient member =>
      inside.trans_le (fits.sizes coefficient member)
    exact ⟨_, Outcome.bind_eq_ok_iff.mpr ⟨block, Outcome.ofLookup?_eq_ok_iff.mpr picks, rfl⟩,
      Contribution.inRange_ofEdgeBlock first second block⟩
  refine ⟨_, Contribution.ofEdgeValues_eq_ok_iff.mpr ⟨complete, parts, mapped, rfl⟩,
    Contribution.InRange.sum fun part member => ?_⟩
  obtain ⟨position, stands⟩ := List.mem_iff_getElem?.mp member
  exact inRange position part stands

/-- Values that are a contribution fit a mesh if the contribution is to its vertices. -/
theorem fits_of_contribution
    (formed : Contribution.ofEdgeValues values edges = .ok contribution)
    (inRange : ∀ entry ∈ contribution.rhs, entry.1 < count) :
    values.ends.length = edges.length ∧ values.Fits count := by
  obtain ⟨complete, parts, mapped, rfl⟩ := Contribution.ofEdgeValues_eq_ok_iff.mp formed
  -- What is known of the pair of endpoints at a position.
  have each : ∀ (position : Nat) (ends : Ends Nat), values.ends[position]? = some ends →
      (∀ coefficient ∈ values.block.coefficients, position < coefficient.size) ∧
        ends.first < count ∧ ends.second < count := by
    intro position ends stands
    have standsPair : values.ends.zipIdx[position]? = some (ends, position) := by
      rw [List.getElem?_zipIdx, stands, Option.map_some, Nat.zero_add]
    obtain ⟨part, standsPart, gives⟩ :=
      exists_getElem?_of_forall₂ (Outcome.mapM_eq_ok_iff.mp mapped) standsPair
    obtain ⟨block, looked, same⟩ := Outcome.bind_eq_ok_iff.mp gives
    cases same
    have picks := Outcome.ofLookup?_eq_ok_iff.mp looked
    have inSum : ∀ entry ∈ (Contribution.ofEdgeBlock ends block).rhs, entry.1 < count :=
      fun entry member => inRange entry
        (Contribution.mem_rhs_sum (List.mem_of_getElem? standsPart) member)
    refine ⟨EdgeBlock.exists_mapM_getElem?_iff.mp ⟨block, picks⟩, ?_, ?_⟩
    · exact inSum (ends.first, _) List.mem_cons_self
    · exact inSum (ends.second, _) (List.mem_cons_of_mem _ List.mem_cons_self)
  refine ⟨complete, fun coefficient member => ?_, fun ends member => ?_⟩
  · by_contra short
    have inside : coefficient.size < values.ends.length := not_le.mp short
    have enough := (each coefficient.size _ (List.getElem?_eq_getElem inside)).1 coefficient member
    exact lt_irrefl _ enough
  · obtain ⟨position, stands⟩ := List.mem_iff_getElem?.mp member
    exact (each position ends stands).2

/-- Values are a contribution, or rejected for their number, or one of their vectors is too short.
-/
theorem propagates_contribution (values : EdgeValues α) (edges : List Nat) :
    (Contribution.ofEdgeValues values edges).Propagates (fun _ => True)
      (values.ends.length = edges.length ∧
        ∃ coefficient ∈ values.block.coefficients, coefficient.size < values.ends.length) := by
  rw [Contribution.ofEdgeValues]
  by_cases complete : values.ends.length = edges.length
  · rw [if_neg (not_not.mpr complete)]
    refine (Outcome.Propagates.mapM fun pair member =>
      (?_ : Outcome.Propagates (fun _ => True) _ _)).bind fun parts _ => .answered trivial
    refine (Outcome.Propagates.ofLookup? fun missing => ⟨complete, ?_⟩).bind fun block _ =>
      .answered trivial
    have inside : pair.2 < values.ends.length := List.snd_lt_of_mem_zipIdx member
    by_contra longEnough
    obtain ⟨block, picks⟩ := EdgeBlock.exists_mapM_getElem?_iff.mpr fun coefficient member =>
      inside.trans_le (not_lt.mp fun short => longEnough ⟨coefficient, member, short⟩)
    cases missing.symm.trans picks
  · rw [if_pos complete]
    exact .rejected _

/-- The values of a compiled kernel fit the mesh that it is evaluated on. -/
theorem fits_of_eval {mesh : Mesh α} {block : EdgeBlock (NumericFunction α)}
    (wellFormed : mesh.WellFormed) (evaluates : block.eval mesh edges = .ok values) :
    values.Fits mesh.vertexCount := by
  obtain ⟨blocks, formed, stand⟩ := EdgeBlock.eval_blocks evaluates
  have count := (Outcome.mapM_eq_ok_iff.mp formed).length_eq
  have complete : values.ends.length = edges.length := EdgeBlock.length_ends_of_eval evaluates
  constructor
  · intro coefficient member
    by_contra short
    have standsBlock := List.getElem?_eq_getElem (by omega : coefficient.size < blocks.length)
    have picks := (stand coefficient.size _ standsBlock).2
    have enough := EdgeBlock.exists_mapM_getElem?_iff.mp ⟨_, picks⟩ coefficient member
    exact lt_irrefl _ enough
  · intro ends member
    obtain ⟨position, stands⟩ := List.mem_iff_getElem?.mp member
    have inside : position < values.ends.length := (List.getElem?_eq_some_iff.mp stands).1
    have standsBlock := List.getElem?_eq_getElem (by omega : position < blocks.length)
    obtain ⟨edge, -, gives⟩ :=
      (Outcome.mem_iff_of_mapM formed).mp (List.mem_of_getElem? standsBlock)
    obtain ⟨joined, looked, gives⟩ := Outcome.bind_eq_ok_iff.mp gives
    obtain ⟨_, -, gives⟩ := Outcome.bind_eq_ok_iff.mp gives
    obtain ⟨_, -, gives⟩ := Outcome.bind_eq_ok_iff.mp gives
    obtain ⟨_, -, gives⟩ := Outcome.bind_eq_ok_iff.mp gives
    obtain ⟨_, -, gives⟩ := Outcome.bind_eq_ok_iff.mp gives
    obtain ⟨_, -, same⟩ := Outcome.bind_eq_ok_iff.mp gives
    have isJoined : ends = joined := by
      have standsEnds := (stand position _ standsBlock).1
      rw [stands, ← Except.ok.inj same] at standsEnds
      exact Option.some.inj standsEnds
    rw [isJoined]
    exact wellFormed.ends joined (Array.mem_of_getElem? (Outcome.ofLookup?_eq_ok_iff.mp looked))

end EdgeValues

end FiniteVolume
