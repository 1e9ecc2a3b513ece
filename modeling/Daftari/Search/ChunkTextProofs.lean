import Daftari.Integrations.VerbatimFenceProofs
import Mathlib.Data.List.Chain

/-! # Chunks — a body as the pieces that are embedded

    `search/vector.ts`: the paragraphs of a body are packed one after the other as long as
    they fit under a cap, with a blank line between them; a paragraph that is longer than the
    cap is cut into slices, which share a chunk with nothing.

    * `chunkText_covers`: **the chunks are within the cap and cover the body, and no two of
      them that are made of whole paragraphs fit into one.** -/

namespace ChunkText

open VerbatimFence (Units isSpaceUnit)

def chunkMaxChars : Nat := 800

def trim (text : Units) : Units := (text.dropWhile isSpaceUnit).rdropWhile isSpaceUnit

/-- How many units `\s*\n` matches here: those up to the last newline of the white space. -/
def blankLine (rest : Units) : Option Nat :=
  let matched := (rest.takeWhile isSpaceUnit).rdropWhile (· ≠ 0x0A)
  if matched = [] then none else some matched.length

/-- `split(/\n\s*\n/)`: how many units are still to be skipped, and the piece so far. -/
def splitPieces : Nat → Units → Units → List Units
  | _, piece, [] => [piece]
  | skip + 1, piece, _ :: rest => splitPieces skip piece rest
  | 0, piece, u :: rest =>
      if u = 0x0A then
        match blankLine rest with
        | some n => piece :: splitPieces n [] rest
        | none => splitPieces 0 (piece ++ [u]) rest
      else splitPieces 0 (piece ++ [u]) rest

def paragraphs (text : Units) : List Units := ((splitPieces 0 [] text).map trim).filter (· ≠ [])

/-- The hard split of a paragraph, with at most so many slices. -/
def slicesFrom : Nat → Units → List Units
  | 0, _ => []
  | n + 1, para =>
      if para = [] then [] else para.take chunkMaxChars :: slicesFrom n (para.drop chunkMaxChars)

def slices (para : Units) : List Units := slicesFrom para.length para

/-- The body of the loop: the chunks, and the current one. -/
def pack (st : List Units × Units) (para : Units) : List Units × Units :=
  let (chunks, current) := st
  if chunkMaxChars < para.length then
    ((if current ≠ [] then chunks ++ [current] else chunks) ++ slices para, [])
  else if chunkMaxChars < current.length + para.length + 2 ∧ current ≠ [] then
    (chunks ++ [current], para)
  else (chunks, if current ≠ [] then current ++ [0x0A, 0x0A] ++ para else para)

def chunkText (text : Units) : List Units :=
  let (chunks, current) := (paragraphs text).foldl pack ([], [])
  let chunks := if current ≠ [] then chunks ++ [current] else chunks
  if 0 < chunks.length then chunks else [trim text]

/-! ## White space -/

def strip (text : Units) : Units := text.filter (! isSpaceUnit ·)

@[simp] theorem strip_append (a b : Units) : strip (a ++ b) = strip a ++ strip b :=
  List.filter_append ..

theorem strip_of_space {text : Units} (h : ∀ u ∈ text, isSpaceUnit u = true) : strip text = [] :=
  List.filter_eq_nil_iff.mpr fun u hu hkept => by
    rw [h u hu] at hkept
    cases hkept

theorem strip_dropWhile (text : Units) : strip (text.dropWhile isSpaceUnit) = strip text := by
  conv_rhs => rw [← List.takeWhile_append_dropWhile (p := isSpaceUnit) (l := text)]
  rw [strip_append, strip_of_space fun u hu => List.mem_takeWhile_imp hu, List.nil_append]

theorem strip_trim (text : Units) : strip (trim text) = strip text := by
  have hreverse : ∀ t : Units, strip t.reverse = (strip t).reverse := fun t => List.filter_reverse
  rw [trim, List.rdropWhile, hreverse, strip_dropWhile, hreverse, List.reverse_reverse,
    strip_dropWhile]

theorem trim_of_strip {text : Units} (h : strip text = []) : trim text = [] := by
  have hspace : ∀ u ∈ text, isSpaceUnit u = true := fun u hu => by
    have hkept := List.filter_eq_nil_iff.mp h u hu
    rwa [Bool.not_eq_true', Bool.not_eq_false] at hkept
  rw [trim, List.dropWhile_eq_nil_iff.mpr hspace]
  rfl

theorem strip_drop_blankLine {rest : Units} {n : Nat} (h : blankLine rest = some n) :
    strip (rest.drop n) = strip rest := by
  unfold blankLine at h
  dsimp only at h
  split_ifs at h
  obtain rfl := Option.some.inj h
  have hpre : (rest.takeWhile isSpaceUnit).rdropWhile (· ≠ 0x0A) <+: rest :=
    (List.rdropWhile_prefix _ _).trans (List.takeWhile_prefix _)
  have hspace : strip ((rest.takeWhile isSpaceUnit).rdropWhile (· ≠ 0x0A)) = [] :=
    strip_of_space fun u hu =>
      List.mem_takeWhile_imp ((List.rdropWhile_prefix _ _).subset hu)
  generalize (rest.takeWhile isSpaceUnit).rdropWhile (· ≠ 0x0A) = matched at hpre hspace ⊢
  obtain ⟨after, rfl⟩ := hpre
  rw [List.drop_left, strip_append, hspace, List.nil_append]

theorem strip_splitPieces (skip : Nat) (piece text : Units) :
    strip (splitPieces skip piece text).flatten = strip piece ++ strip (text.drop skip) := by
  fun_induction splitPieces skip piece text with
  | case1 skip piece =>
      rw [List.flatten_singleton, List.drop_nil]
      exact (List.append_nil _).symm
  | case2 skip piece u rest ih => exact ih
  | case3 piece rest n h ih =>
      rw [List.flatten_cons, strip_append, ih, strip_drop_blankLine h]
      rfl
  | case4 piece rest h ih =>
      rw [ih, strip_append, List.append_assoc]
      rfl
  | case5 piece u rest h ih =>
      rw [ih, strip_append, List.append_assoc, ← strip_append]
      rfl

theorem strip_paragraphs (text : Units) : strip (paragraphs text).flatten = strip text := by
  have htrim : ∀ pieces : List Units,
      strip (pieces.map trim).flatten = strip pieces.flatten := by
    intro pieces
    induction pieces with
    | nil => rfl
    | cons piece pieces ih =>
        rw [List.map_cons, List.flatten_cons, List.flatten_cons, strip_append, strip_append,
          strip_trim, ih]
  rw [paragraphs, List.flatten_filter_ne_nil, htrim, strip_splitPieces]
  rfl

/-! ## Slices -/

theorem slicesFrom_spec {n : Nat} {para : Units} (h : para.length ≤ n) :
    (slicesFrom n para).flatten = para ∧
      ∀ slice ∈ slicesFrom n para, slice ≠ [] ∧ slice.length ≤ chunkMaxChars := by
  induction n generalizing para with
  | zero =>
      obtain rfl := List.length_eq_zero_iff.mp (Nat.le_zero.mp h)
      exact ⟨rfl, fun slice hslice => (nomatch hslice)⟩
  | succ n ih =>
      rw [slicesFrom]
      by_cases hnil : para = []
      · rw [if_pos hnil]
        exact ⟨hnil.symm, fun slice hslice => (nomatch hslice)⟩
      · have hpos := List.length_pos_iff.mpr hnil
        have hdrop : (para.drop chunkMaxChars).length ≤ n := by
          rw [List.length_drop, chunkMaxChars]
          omega
        obtain ⟨hflat, hslices⟩ := ih hdrop
        rw [if_neg hnil, List.flatten_cons, hflat, List.forall_mem_cons]
        refine ⟨List.take_append_drop _ _, ⟨?_, List.length_take_le _ _⟩, hslices⟩
        rw [← List.length_pos_iff, List.length_take]
        exact lt_min (by decide) hpos

/-! ## Groups -/

/-- Paragraphs with a blank line between them. -/
def joined : List Units → Units
  | [] => []
  | [para] => para
  | para :: para' :: paras => para ++ [0x0A, 0x0A] ++ joined (para' :: paras)

/-- What a stretch of chunks is made of: whole paragraphs in one chunk, or the slices of one. -/
inductive Group where
  | whole (paras : List Units)
  | long (para : Units)

namespace Group

def paras : Group → List Units
  | whole paras => paras
  | long para => [para]

def chunks : Group → List Units
  | whole paras => [joined paras]
  | long para => slices para

/-- Whole paragraphs fit under the cap; one that is cut does not. -/
def Ok : Group → Prop
  | whole paras => paras ≠ [] ∧ (joined paras).length ≤ chunkMaxChars
  | long para => chunkMaxChars < para.length

/-- Two groups that follow each other could not have been one chunk. -/
def Apart : Group → Group → Prop
  | whole paras, whole paras' => chunkMaxChars < (joined (paras ++ paras')).length
  | _, _ => True

end Group

variable {paras : List Units}

theorem joined_append {paras' : List Units} (h : paras ≠ []) (h' : paras' ≠ []) :
    joined (paras ++ paras') = joined paras ++ [0x0A, 0x0A] ++ joined paras' := by
  induction paras with
  | nil => exact absurd rfl h
  | cons para paras ih =>
      cases paras with
      | nil =>
          obtain ⟨para', rest, rfl⟩ := List.exists_cons_of_ne_nil h'
          rfl
      | cons para' rest =>
          show para ++ [0x0A, 0x0A] ++ joined (para' :: rest ++ paras') = _
          rw [ih (List.cons_ne_nil _ _)]
          simp only [joined, List.append_assoc]

theorem joined_ne_nil (h : ∀ para ∈ paras, para ≠ []) (hne : paras ≠ []) : joined paras ≠ [] := by
  obtain ⟨para, rest, rfl⟩ := List.exists_cons_of_ne_nil hne
  have hpara := h para List.mem_cons_self
  cases rest with
  | nil => exact hpara
  | cons para' rest =>
      intro hnil
      exact hpara (List.append_eq_nil_iff.mp (List.append_eq_nil_iff.mp hnil).1).1

theorem strip_joined (paras : List Units) : strip (joined paras) = strip paras.flatten := by
  induction paras with
  | nil => rfl
  | cons para paras ih =>
      cases paras with
      | nil => rw [List.flatten_singleton, joined]
      | cons para' rest =>
          have hbreak : strip [0x0A, 0x0A] = [] := rfl
          rw [joined, strip_append, strip_append, hbreak, List.append_nil, ih]
          exact (strip_append _ _).symm

theorem prefix_joined (para : Units) (paras : List Units) : para <+: joined (para :: paras) := by
  cases paras with
  | nil => exact List.prefix_rfl
  | cons para' rest =>
      rw [joined, List.append_assoc]
      exact List.prefix_append _ _

theorem infix_joined {para : Units} (h : para ∈ paras) : para <:+: joined paras := by
  obtain ⟨before, after, rfl⟩ := List.append_of_mem h
  rcases eq_or_ne before [] with rfl | hbefore
  · exact (prefix_joined para after).isInfix
  · rw [joined_append hbefore (List.cons_ne_nil _ _)]
    exact (prefix_joined para after).isInfix.trans (List.suffix_append _ _).isInfix

/-- What the loop has packed of some paragraphs, and what it holds back of them. -/
structure Packed (seen : List Units) (st : List Units × Units) (groups : List Group)
    (held : List Units) : Prop where
  chunks : st.1 = groups.flatMap Group.chunks
  current : st.2 = joined held
  paras : groups.flatMap Group.paras ++ held = seen
  ok : ∀ group ∈ groups, group.Ok
  fits : st.2.length ≤ chunkMaxChars
  chain : groups.IsChain Group.Apart
  last : ∀ group ∈ groups.getLast?, ∀ more, group.Apart (.whole (held ++ more))

theorem Packed.flush {seen : List Units} {st : List Units × Units} {groups : List Group}
    {held : List Units} (h : Packed seen st groups held) (hseen : ∀ para ∈ seen, para ≠ []) :
    ∃ groups' : List Group, (if st.2 ≠ [] then st.1 ++ [st.2] else st.1) =
        groups'.flatMap Group.chunks ∧ groups'.flatMap Group.paras = seen ∧
      (∀ group ∈ groups', group.Ok) ∧ groups'.IsChain Group.Apart := by
  rcases eq_or_ne held [] with rfl | hheld
  · have hnone : st.2 = [] := h.current
    refine ⟨groups, ?_, (List.append_nil _).symm.trans h.paras, h.ok, h.chain⟩
    rw [if_neg (not_not.mpr hnone), h.chunks]
  · have hsome : st.2 ≠ [] := h.current ▸ joined_ne_nil
      (fun p hp => hseen p (h.paras ▸ List.mem_append_right _ hp)) hheld
    refine ⟨groups ++ [.whole held], ?_, ?_, ?_, ?_⟩
    · rw [if_pos hsome, h.chunks, h.current, List.flatMap_append]
      rfl
    · rw [List.flatMap_append, List.flatMap_singleton, ← h.paras]
      rfl
    · exact List.forall_mem_append.mpr ⟨h.ok, List.forall_mem_singleton.mpr
        ⟨hheld, h.current ▸ h.fits⟩⟩
    · refine h.chain.append (List.isChain_singleton _) fun group hgroup next hnext => ?_
      obtain rfl := Option.some.inj hnext
      exact (congrArg (fun ps => group.Apart (.whole ps)) (List.append_nil held)).mp
        (h.last group hgroup [])

/-- **The loop**, one paragraph after the other. -/
theorem pack_spec (hparas : ∀ para ∈ paras, para ≠ []) :
    ∃ groups held, Packed paras (paras.foldl pack ([], [])) groups held := by
  induction paras using List.reverseRecOn with
  | nil =>
      exact ⟨[], [], rfl, rfl, rfl, fun _ h => (nomatch h), Nat.zero_le _, .nil,
        fun _ h => (nomatch h)⟩
  | append_singleton paras para ih =>
      have hold : ∀ p ∈ paras, p ≠ [] := fun p hp => hparas p (List.mem_append_left _ hp)
      obtain ⟨groups, held, h⟩ := ih hold
      have hheld : held ≠ [] → joined held ≠ [] := joined_ne_nil fun p hp =>
        hold p (h.paras ▸ List.mem_append_right _ hp)
      rw [List.foldl_append, List.foldl_cons, List.foldl_nil]
      generalize paras.foldl pack ([], []) = st at h
      obtain ⟨chunks, current⟩ := st
      by_cases hlong : chunkMaxChars < para.length
      · -- what is held back is flushed, and the slices follow
        obtain ⟨groups', hchunks, hseen, hok, hchain⟩ := h.flush hold
        refine ⟨groups' ++ [.long para], [], ?_, ?_, ?_, ?_, ?_, ?_, ?_⟩
        · simp only [pack, if_pos hlong]
          rw [List.flatMap_append, List.flatMap_singleton, ← hchunks]
          rfl
        · simp only [pack, if_pos hlong]
          rfl
        · rw [List.append_nil, List.flatMap_append, List.flatMap_singleton, hseen]
          rfl
        · exact List.forall_mem_append.mpr ⟨hok, List.forall_mem_singleton.mpr hlong⟩
        · simp only [pack, if_pos hlong]
          exact Nat.zero_le _
        · refine hchain.append (List.isChain_singleton _) fun group _ next hnext => ?_
          obtain rfl := Option.some.inj hnext
          cases group <;> trivial
        · intro group hgroup more
          rw [List.getLast?_concat] at hgroup
          obtain rfl := Option.some.inj hgroup
          trivial
      · obtain ⟨hchunks, hcurrent, hseen, hok, hfits, hchain, hlast⟩ := h
        dsimp only at hchunks hcurrent hfits
        by_cases hfull : chunkMaxChars < current.length + para.length + 2 ∧ current ≠ []
        · have hne : held ≠ [] := by
            rintro rfl
            exact hfull.2 hcurrent
          refine ⟨groups ++ [.whole held], [para], ?_, ?_, ?_, ?_, ?_, ?_, ?_⟩
          · simp only [pack, if_neg hlong, if_pos hfull]
            rw [List.flatMap_append, hchunks, hcurrent]
            rfl
          · simp only [pack, if_neg hlong, if_pos hfull]
            rfl
          · rw [List.flatMap_append, List.flatMap_singleton, ← hseen]
            rfl
          · exact List.forall_mem_append.mpr ⟨hok, List.forall_mem_singleton.mpr
              ⟨hne, hcurrent ▸ hfits⟩⟩
          · simp only [pack, if_neg hlong, if_pos hfull]
            exact not_lt.mp hlong
          · refine hchain.append (List.isChain_singleton _) fun group hgroup next hnext => ?_
            obtain rfl := Option.some.inj hnext
            exact (congrArg (fun ps => group.Apart (.whole ps)) (List.append_nil held)).mp
              (hlast group hgroup [])
          · intro group hgroup more
            rw [List.getLast?_concat] at hgroup
            obtain rfl := Option.some.inj hgroup
            have hlen := (prefix_joined para more).length_le
            show chunkMaxChars < (joined (held ++ para :: more)).length
            rw [joined_append hne (List.cons_ne_nil _ _), ← hcurrent, List.length_append,
              List.length_append]
            show chunkMaxChars < current.length + 2 + _
            omega
        · have hroom : current ≠ [] → current.length + para.length + 2 ≤ chunkMaxChars :=
            fun hne => not_lt.mp fun hlt => hfull ⟨hlt, hne⟩
          have hnext : (if current ≠ [] then current ++ [0x0A, 0x0A] ++ para else para) =
              joined (held ++ [para]) := by
            rcases eq_or_ne held [] with rfl | hne
            · have hnone : current = [] := hcurrent
              rw [if_neg (not_not.mpr hnone)]
              rfl
            · rw [if_pos (hcurrent ▸ hheld hne), joined_append hne (List.cons_ne_nil _ _), hcurrent]
              rfl
          refine ⟨groups, held ++ [para], ?_, ?_, ?_, hok, ?_, hchain, ?_⟩
          · simp only [pack, if_neg hlong, if_neg hfull]
            exact hchunks
          · simp only [pack, if_neg hlong, if_neg hfull]
            exact hnext
          · rw [← List.append_assoc, hseen]
          · simp only [pack, if_neg hlong, if_neg hfull]
            split_ifs with hne
            · rw [List.length_append, List.length_append]
              have hlen := hroom hne
              show current.length + 2 + _ ≤ _
              omega
            · exact not_lt.mp hlong
          · intro group hgroup more
            rw [List.append_assoc]
            exact hlast group hgroup _

/-! ## The chunks -/

/-- What a body is cut into. -/
structure Covers (text : Units) (chunks : List Units) : Prop where
  cap : ∀ chunk ∈ chunks, chunk.length ≤ chunkMaxChars
  content : strip chunks.flatten = strip text
  filled : [] ∈ chunks → strip text = []
  whole : ∀ para ∈ paragraphs text, para.length ≤ chunkMaxChars → ∃ chunk ∈ chunks, para <:+: chunk
  /-- The chunks in their order are whole paragraphs, joined, and the slices of long ones; joined
      ones next to each other are more than the cap when they are joined. -/
  greedy : paragraphs text ≠ [] → ∃ groups : List Group, chunks = groups.flatMap Group.chunks ∧
    groups.flatMap Group.paras = paragraphs text ∧ (∀ group ∈ groups, group.Ok) ∧
    groups.IsChain Group.Apart

theorem Group.chunks_spec {group : Group} (hok : group.Ok)
    (hparas : ∀ para ∈ group.paras, para ≠ []) :
    strip group.chunks.flatten = strip group.paras.flatten ∧ group.chunks ≠ [] ∧
      ∀ chunk ∈ group.chunks, chunk ≠ [] ∧ chunk.length ≤ chunkMaxChars := by
  cases group with
  | whole paras =>
      refine ⟨?_, List.cons_ne_nil _ _,
        List.forall_mem_singleton.mpr ⟨joined_ne_nil hparas hok.1, hok.2⟩⟩
      show strip [joined paras].flatten = strip paras.flatten
      rw [List.flatten_singleton, strip_joined]
  | long para =>
      obtain ⟨hflat, hslices⟩ := slicesFrom_spec (le_refl para.length)
      refine ⟨?_, fun hnil => ?_, hslices⟩
      · show strip (slices para).flatten = strip [para].flatten
        rw [slices, hflat, List.flatten_singleton]
      · have hnone : slicesFrom para.length para = [] := hnil
        rw [hnone] at hflat
        exact hparas para List.mem_cons_self hflat.symm

theorem strip_groups {groups : List Group} (h : ∀ group ∈ groups,
    strip group.chunks.flatten = strip group.paras.flatten) :
    strip (groups.flatMap Group.chunks).flatten = strip (groups.flatMap Group.paras).flatten := by
  induction groups with
  | nil => rfl
  | cons group groups ih =>
      obtain ⟨hgroup, hrest⟩ := List.forall_mem_cons.mp h
      rw [List.flatMap_cons, List.flatMap_cons, List.flatten_append, List.flatten_append,
        strip_append, strip_append, hgroup, ih hrest]

/-- **THE CHUNKS COVER THE BODY.** -/
theorem chunkText_covers (text : Units) : Covers text (chunkText text) := by
  have hparas : ∀ para ∈ paragraphs text, para ≠ [] := fun para hpara =>
    of_decide_eq_true (List.mem_filter.mp hpara).2
  by_cases hnone : paragraphs text = []
  · -- a blank text is one empty chunk
    have hblank : strip text = [] := by
      rw [← strip_paragraphs, hnone]
      rfl
    have hcode : chunkText text = [[]] := by
      unfold chunkText
      rw [hnone, trim_of_strip hblank]
      rfl
    rw [hcode]
    refine ⟨List.forall_mem_singleton.mpr (Nat.zero_le _), hblank.symm, fun _ => hblank,
      fun para hpara => ?_, fun hsome => absurd hnone hsome⟩
    rw [hnone] at hpara
    cases hpara
  · obtain ⟨groups, held, hpacked⟩ := pack_spec hparas
    obtain ⟨groups, hchunks, hseen, hok, hchain⟩ := hpacked.flush hparas
    have hgroup : ∀ group ∈ groups, _ := fun group hg => Group.chunks_spec (hok group hg)
      fun para hpara => hparas para (hseen ▸ List.mem_flatMap.mpr ⟨group, hg, hpara⟩)
    have hchunk : ∀ chunk ∈ groups.flatMap Group.chunks,
        chunk ≠ [] ∧ chunk.length ≤ chunkMaxChars := by
      intro chunk hc
      obtain ⟨group, hg, hc⟩ := List.mem_flatMap.mp hc
      exact (hgroup group hg).2.2 chunk hc
    have hsome : groups.flatMap Group.chunks ≠ [] := by
      intro hnil
      rw [List.flatMap_eq_nil_iff] at hnil
      cases groups with
      | nil => exact hnone hseen.symm
      | cons group rest =>
          exact (hgroup group List.mem_cons_self).2.1 (hnil group List.mem_cons_self)
    have hcode : chunkText text = groups.flatMap Group.chunks := by
      have hlong : chunkText text = if 0 < (groups.flatMap Group.chunks).length then
          groups.flatMap Group.chunks else [trim text] := by
        rw [← hchunks]
        rfl
      rw [hlong, if_pos (List.length_pos_iff.mpr hsome)]
    rw [hcode]
    refine ⟨fun chunk hc => (hchunk chunk hc).2, ?_, fun hnil => absurd rfl (hchunk [] hnil).1,
      fun para hpara hcap => ?_, fun _ => ⟨groups, rfl, hseen, hok, hchain⟩⟩
    · rw [strip_groups fun group hg => (hgroup group hg).1, hseen, strip_paragraphs]
    · rw [← hseen] at hpara
      obtain ⟨group, hg, hpara⟩ := List.mem_flatMap.mp hpara
      cases group with
      | whole paras =>
          exact ⟨joined paras, List.mem_flatMap.mpr ⟨_, hg, List.mem_singleton_self _⟩,
            infix_joined hpara⟩
      | long para' =>
          obtain rfl := List.mem_singleton.mp hpara
          exact absurd (hok _ hg) (not_lt.mpr hcap)

end ChunkText
