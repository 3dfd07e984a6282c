import K2.Vp8.Recon

/-! # Two reconstructions of one macroblock

Planes that agree on what was decoded so far agree on one macroblock more once
it is reconstructed in both: a prediction reads the current frame only where it
is decoded, and every pixel of the macroblock is written. The residual leaves no
coefficient behind. -/

namespace K2.Vp8

open Checked Buffers Buffers.Edit

/-- Two planes of `cols` by `rows` macroblocks of `n` by `n` that agree on `D`. -/
structure Plane.Agrees (n cols rows : Nat) (D : Set Nat) (p q : Plane) : Prop where
  width : p.w = cols * n ∧ q.w = cols * n
  height : p.h = rows * n ∧ q.h = rows * n
  data : Agree (rows * n * (cols * n)) D p.data q.data

/-- Two frames that agree on what is decoded before column `col` of row `row`. -/
structure FrameBuf.Agrees (cols rows row col : Nat) (p q : FrameBuf) : Prop where
  y : p.y.Agrees 16 cols rows (Decoded (cols * 16) 16 row col) q.y
  u : p.u.Agrees 8 cols rows (Decoded (cols * 8) 8 row col) q.u
  v : p.v.Agrees 8 cols rows (Decoded (cols * 8) 8 row col) q.v

section planes

variable {α : Type} {n cols rows : Nat} {D D' : Set Nat} {p q : Plane} {P : α → Prop}

variable {mbx mby stride : Nat} {P : Coeffs → Prop}

theorem paired_stored {fill : Edit UInt8 Coeffs} (place : MbAt (cols * n) n cols rows mbx mby)
    (agrees : p.Agrees n cols rows (Decoded (cols * n) n mby mbx) q) (wide : n < stride)
    (filled : Tracks ((n + 1) * stride) Set.univ Set.univ P fill) :
    Paired (fun r r' => r.1.Agrees n cols rows (Decoded (cols * n) n mby (mbx + 1)) r'.1 ∧ r.2 = r'.2 ∧ P r.2)
      (stored p ((n + 1) * stride) stride n mbx mby fill) (stored q ((n + 1) * stride) stride n mbx mby fill) := by
  unfold stored
  refine (Paired.twice (filled.runs.start (List.length_replicate ..))).bind fun r r' known => ?_
  obtain ⟨rfl, holds, length⟩ := known
  obtain ⟨_, p', q', left, right, -, agree⟩ := tracks_storeWs place wide length _ _ agrees.data
  have width := agrees.width
  simp only [width.1, width.2, left, right, Option.bind_eq_bind, Option.bind_some]
  exact Paired.pure ⟨⟨⟨rfl, rfl⟩, agrees.height, agree⟩, rfl, holds⟩

end planes

/-! ## Intra macroblocks -/

theorem univ_blockIn {size pos stride : Nat} (inside : pos + 3 * stride + 4 ≤ size) :
    BlockIn size Set.univ pos stride := by
  intro r below
  have : r * stride ≤ 3 * stride := Nat.mul_le_mul_right _ (by omega)
  exact ⟨by omega, fun _ _ => Set.mem_univ _⟩

theorem wsPos_inside {b : Nat} (below : b < 16) : SubblockIn (17 * lumaWsStride) lumaWsStride (wsPos lumaWsStride b) := by
  have down : b / 4 * 4 ≤ 12 := by omega
  have across : b % 4 * 4 ≤ 12 := by omega
  refine ⟨?_, by decide, ?_⟩
  · show 21 < (1 + b / 4 * 4) * 21 + 1 + b % 4 * 4
    omega
  · show (1 + b / 4 * 4) * 21 + 1 + b % 4 * 4 + 3 * 21 + 4 ≤ 17 * 21
    omega

theorem chromaWsPos_inside {j : Nat} (below : j < 4) :
    chromaWsPos chromaWsStride j + 3 * chromaWsStride + 4 ≤ 9 * chromaWsStride := by
  show (1 + j / 2 * 4) * 9 + 1 + j % 2 * 4 + 3 * 9 + 4 ≤ 9 * 9
  omega

theorem tracks_spreadAboveRight :
    Tracks (17 * lumaWsStride) Set.univ Set.univ (fun _ => True) (spreadAboveRight lumaWsStride) := by
  refine Tracks.loop (fun _ _ => True) (fun _ => Set.univ) trivial fun k below _ _ => ?_
  refine (Tracks.slice (by decide) fun _ _ _ => Set.mem_univ _).bind fun run four => ?_
  refine (Tracks.splice ?_).mono (fun _ h => h) Set.subset_union_left
  rw [four]
  show 21 + (4 * (k + 1) - 1) * 21 + 17 + 4 ≤ 17 * 21
  omega

section intra

variable {mb : MbInfo} {mbx mby cols rows : Nat} {eobs : List Nat} {hasY2 : Bool} {coeffs : Coeffs}

theorem tracks_intraLuma {plane : Plane} (valid : mb.Valid) (intra : mb.refFrame = intraFrame)
    (y2 : hasY2 = true → mb.yMode ≠ bPred) (y2' : hasY2 = false → mb.yMode = bPred)
    (place : MbAt (cols * 16) 16 cols rows mbx mby) (width : plane.w = cols * 16)
    (length : plane.data.length = rows * 16 * (cols * 16)) (settled : Settled hasY2 eobs coeffs) :
    Tracks (17 * lumaWsStride) Set.univ Set.univ (Spent 16 eobs)
      (intraLuma plane mb mbx mby cols eobs hasY2 coeffs) := by
  unfold intraLuma
  rw [width]
  refine (tracks_fillWsBorder place (fun _ => rfl) (by decide) (fun _ => by decide) length).bind fun _ _ => ?_
  split
  next subblocks =>
    have off : hasY2 = false := by
      cases hasY2 with
      | false => rfl
      | true => exact absurd subblocks (y2 rfl)
    subst off
    refine tracks_spreadAboveRight.bind fun _ _ => ?_
    refine Tracks.loop (fun b => Spent b eobs) (fun _ => Set.univ) settled.spent fun b below coeffs spent => ?_
    have here := wsPos_inside below
    refine (Tracks.lift (Yields.getElem? (by rw [valid.bmodes.1]; exact below) valid.bmodes.2)).bind fun mode known => ?_
    refine (tracks_predictSubblock here known).bind fun _ _ => ?_
    exact tracks_addBlock spent (by omega) (univ_blockIn here.bottom)
  next whole =>
    have on : hasY2 = true := by
      cases hasY2 with
      | true => rfl
      | false => exact absurd (y2' rfl) whole
    have few : mb.yMode.toNat ≤ 3 := by
      have four := (valid.intra intra).1
      rcases Nat.lt_or_eq_of_le four with less | same
      · omega
      · exact absurd (UInt8.toNat.inj same) whole
    refine (tracks_predictBlock (by decide) (by decide) few _ _).bind fun _ _ => ?_
    refine (Tracks.lift (yields_spreadY2 settled)).bind fun coeffs spent => ?_
    have blocks : ∀ j < 16, BlockIn (17 * lumaWsStride) Set.univ (wsPos lumaWsStride j) lumaWsStride :=
      fun j below => univ_blockIn (wsPos_inside below).bottom
    have all := tracks_addBlocks 0 16 spent (by decide) blocks
    exact all

theorem tracks_intraChroma {plane : Plane} {first : Nat} (valid : mb.Valid) (intra : mb.refFrame = intraFrame)
    (place : MbAt (cols * 8) 8 cols rows mbx mby) (width : plane.w = cols * 8)
    (length : plane.data.length = rows * 8 * (cols * 8)) (few : first + 4 ≤ 24) (spent : Spent first eobs coeffs) :
    Tracks (9 * chromaWsStride) Set.univ Set.univ (Spent (first + 4) eobs)
      (intraChroma plane first mb mbx mby eobs coeffs) := by
  unfold intraChroma
  rw [width]
  refine (tracks_fillWsBorder place (fun h => by cases h) (by decide) (fun h => by cases h) length).bind fun _ _ => ?_
  refine (tracks_predictBlock (by decide) (by decide) (valid.intra intra).2 _ _).bind fun _ _ => ?_
  exact tracks_addBlocks first 4 spent few fun j below => univ_blockIn (chromaWsPos_inside below)

/-- An intra macroblock adds itself to what two frames agree on. -/
theorem paired_reconIntra {p q : FrameBuf} (valid : mb.Valid) (intra : mb.refFrame = intraFrame)
    (y2 : hasY2 = true → mb.yMode ≠ bPred) (y2' : hasY2 = false → mb.yMode = bPred) (across : mbx < cols)
    (down : mby < rows) (agrees : p.Agrees cols rows mby mbx q) (settled : Settled hasY2 eobs coeffs) :
    Paired (fun r r' => r.1.Agrees cols rows mby (mbx + 1) r'.1 ∧ r.2 = noCoeffs ∧ r'.2 = noCoeffs)
      (reconIntra p mb mbx mby cols coeffs eobs hasY2) (reconIntra q mb mbx mby cols coeffs eobs hasY2) := by
  have luma : MbAt (cols * 16) 16 cols rows mbx mby := ⟨rfl, across, down, by decide⟩
  have chroma : MbAt (cols * 8) 8 cols rows mbx mby := ⟨rfl, across, down, by decide⟩
  obtain ⟨ay, au, av⟩ := agrees
  have sameY : intraLuma q.y mb mbx mby cols eobs hasY2 coeffs = intraLuma p.y mb mbx mby cols eobs hasY2 coeffs := by
    unfold intraLuma
    dsimp only
    rw [ay.width.1, ay.width.2, fillWsBorder_congr luma (fun _ => rfl) ay.data]
  have sameC {a b : Plane} (h : a.Agrees 8 cols rows (Decoded (cols * 8) 8 mby mbx) b) (first : Nat) (c : Coeffs) :
      intraChroma b first mb mbx mby eobs c = intraChroma a first mb mbx mby eobs c := by
    unfold intraChroma
    dsimp only
    rw [h.width.1, h.width.2, fillWsBorder_congr chroma (fun h => by cases h) h.data]
  unfold reconIntra
  rw [sameY]
  refine (paired_stored luma ay (by decide)
    (tracks_intraLuma valid intra y2 y2' luma ay.width.1 ay.data.left settled)).bind ?_
  rintro ⟨y, c⟩ ⟨y', c'⟩ ⟨ry, same, spent⟩
  obtain rfl : c = c' := same
  dsimp only
  rw [sameC au]
  refine (paired_stored chroma au (by decide)
    (tracks_intraChroma valid intra chroma au.width.1 au.data.left (by decide) spent)).bind ?_
  rintro ⟨u, c⟩ ⟨u', c'⟩ ⟨ru, same, spent⟩
  obtain rfl : c = c' := same
  dsimp only
  rw [sameC av]
  refine (paired_stored chroma av (by decide)
    (tracks_intraChroma valid intra chroma av.width.1 av.data.left (by decide) spent)).bind ?_
  rintro ⟨v, c⟩ ⟨v', c'⟩ ⟨rv, same, spent⟩
  obtain rfl : c = c' := same
  exact Paired.pure ⟨⟨ry, ru, rv⟩, spent.eq_noCoeffs, spent.eq_noCoeffs⟩

end intra

end K2.Vp8
