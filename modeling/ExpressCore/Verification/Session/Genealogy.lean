import ExpressCore.Verification.Session.Coverage
import ExpressCore.Verification.Session.Runs
import ExpressCore.Verification.Session.Sealing
import Mathlib.Data.List.Chain
import Mathlib.Data.List.Pairwise

/-! # Families of refresh tokens

The rows of a family were inserted one after the other, each as the successor of the one before,
and what is left of them follows that order. -/

namespace ExpressCore.Session

open ReadCommitted Interleaving

/-- The insertion of a row: by which thread, the token that was drawn for it and when, and the row
as it was inserted. -/
structure Link where
  thread : ℕ
  id : ℕ
  token : String
  drawnAt : Time
  row : RefreshToken

/-- An insertion that was committed. -/
structure Issued (setup : Setup) (s : State) (l : Link) : Prop where
  minted : (l.thread, l.token, l.drawnAt) ∈ s.minted
  logged : (l.thread, l.id, some l.row) ∈ s.db.refreshTokens.log
  token : l.row.token = hashToken setup l.token
  live : l.row.rotatedAt = none
  unsealed : l.row.successorCiphertext = none
  expires : l.row.expiresAt ≤ l.drawnAt + lifetime setup

/-- The row of `x` was rotated, if it is left, and seals the token of `z`. -/
def Linked (setup : Setup) (s : State) (x z : Link) : Prop :=
  ∀ r, s.db.refreshTokens.committed x.id = some r → ∃ now c,
    r = { x.row with rotatedAt := some now, successorCiphertext := some c } ∧
      Seals setup x.token z.token c ∧ x.drawnAt ≤ now ∧ now ≤ z.drawnAt

/-- The insertions of one family. -/
structure Line (setup : Setup) (s : State) (chain : List Link) : Prop where
  linked : chain.IsChain (Linked setup s)
  last : ∀ l, chain.getLast? = some l → ∀ r, s.db.refreshTokens.committed l.id = some r → r = l.row
  drawn : chain.Pairwise fun x z => x.drawnAt ≤ z.drawnAt
  expires : chain.Pairwise fun x z => x.row.expiresAt ≤ z.row.expiresAt
  user : chain.Pairwise fun x z => x.row.userId = z.row.userId
  tail : chain.Pairwise fun x z => s.db.refreshTokens.committed x.id ≠ none →
    s.clock < x.row.expiresAt → s.db.refreshTokens.committed z.id ≠ none

/-- The links of family `f`. -/
def familyOf (f : ℕ) (links : List Link) : List Link := links.filter fun l => l.row.familyId = f

/-- Every committed insertion, in order. -/
structure Genealogy (setup : Setup) (s : State) (links : List Link) : Prop where
  issued : ∀ l ∈ links, Issued setup s l
  threads : links.Pairwise fun x z => x.thread ≠ z.thread
  ids : links.Pairwise fun x z => x.id ≠ z.id
  complete : ∀ e ∈ s.db.refreshTokens.log, ∀ r, e.2.2 = some r →
    ∃ l ∈ links, l.id = e.2.1 ∧ l.row.SameIssue r
  ordered : links.Pairwise fun x z => ∀ past, past <+: s.db.refreshTokens.log →
    (∃ e ∈ past, e.2.1 = z.id) → (x.thread, x.id, some x.row) ∈ past
  line : ∀ f, Line setup s (familyOf f links)

variable {setup : Setup} {traced : Prop} {opens : ℕ → Prop} {A : Assumption ℕ Request State}
  {t : ℕ} {s s' : State} {links chain : List Link} {l x z : Link}

theorem mem_familyOf {f : ℕ} : l ∈ familyOf f links ↔ l ∈ links ∧ l.row.familyId = f := by
  simp [familyOf]

theorem familyOf_append {f : ℕ} :
    familyOf f (links ++ [l]) = familyOf f links ++ if l.row.familyId = f then [l] else [] := by
  by_cases h : l.row.familyId = f <;> simp [familyOf, h]

/-! ## One family -/

/-- The live row of a family is its last. -/
theorem Line.eq_append_of_live (h : Line setup s chain) (hl : l ∈ chain) {r : RefreshToken}
    (hr : s.db.refreshTokens.committed l.id = some r) (hlive : r.rotatedAt = none) :
    ∃ before, chain = before ++ [l] := by
  obtain ⟨before, rest, rfl⟩ := List.append_of_mem hl
  cases rest with
  | nil => exact ⟨before, rfl⟩
  | cons z rest =>
      obtain ⟨-, hlinked, -⟩ := List.isChain_append_cons_cons.mp h.linked
      obtain ⟨now, c, rfl, -⟩ := hlinked r hr
      cases hlive

/-- Rows are removed and time goes on. -/
theorem Line.mono (h : Line setup s chain)
    (hrows : ∀ l ∈ chain, ∀ r, s'.db.refreshTokens.committed l.id = some r →
      s.db.refreshTokens.committed l.id = some r)
    (htail : chain.Pairwise fun x z => s'.db.refreshTokens.committed x.id ≠ none →
      s'.clock < x.row.expiresAt → s'.db.refreshTokens.committed z.id ≠ none) :
    Line setup s' chain where
  linked := h.linked.imp_of_mem_imp fun x _ hx _ hlinked r hr => hlinked r (hrows x hx r hr)
  last l hl r hr := h.last l hl r (hrows l (List.mem_of_getLast? hl) r hr)
  drawn := h.drawn
  expires := h.expires
  user := h.user
  tail := htail

theorem Line.same (h : Line setup s chain) (hclock : s.clock ≤ s'.clock)
    (hrows : ∀ l ∈ chain, s'.db.refreshTokens.committed l.id = s.db.refreshTokens.committed l.id) :
    Line setup s' chain := by
  refine h.mono (fun l hl r hr => hrows l hl ▸ hr) (h.tail.imp_of_mem ?_)
  intro x z hx hz htail hthere hclock'
  rw [hrows x hx] at hthere
  rw [hrows z hz]
  exact htail hthere (Nat.lt_of_le_of_lt hclock hclock')

/-- A family goes on: its last row, if there is one, is rotated. -/
theorem Line.append (h : Line setup s chain) (hclock : s.clock ≤ s'.clock)
    (hnew : s'.db.refreshTokens.committed l.id = some l.row)
    (hlast : ∀ x, chain.getLast? = some x → Linked setup s' x l ∧ x.drawnAt ≤ l.drawnAt ∧
      x.row.expiresAt ≤ l.row.expiresAt ∧ x.row.userId = l.row.userId)
    (hrows : ∀ x ∈ chain, s'.db.refreshTokens.committed x.id = s.db.refreshTokens.committed x.id ∨
      ∃ r, s.db.refreshTokens.committed x.id = some r ∧ r.rotatedAt = none ∧
        s'.db.refreshTokens.committed x.id ≠ none) :
    Line setup s' (chain ++ [l]) := by
  have hpairs {R : Link → Link → Prop} (hchain : chain.Pairwise R)
      (htrans : ∀ x z, R x z → R z l → R x l) (hend : ∀ x, chain.getLast? = some x → R x l) :
      (chain ++ [l]).Pairwise R := by
    refine List.pairwise_append.mpr ⟨hchain, List.pairwise_singleton _ _, fun x hx z hz => ?_⟩
    obtain rfl := List.mem_singleton.mp hz
    rcases List.eq_nil_or_concat chain with rfl | ⟨before, last, rfl⟩
    · cases hx
    · have hlast := hend last (by simp)
      rw [List.concat_eq_append] at hx hchain
      rcases List.mem_append.mp hx with hx | hx
      · exact htrans x last ((List.pairwise_append.mp hchain).2.2 x hx last (by simp)) hlast
      · exact List.mem_singleton.mp hx ▸ hlast
  refine ⟨List.isChain_append.mpr ⟨?_, List.isChain_singleton _, ?_⟩, ?_, ?_, ?_, ?_, ?_⟩
  · refine h.linked.imp_of_mem_imp fun x _ hx _ hlinked r hr => ?_
    rcases hrows x hx with heq | ⟨r', hr', hlive, -⟩
    · exact hlinked r (heq ▸ hr)
    · obtain ⟨now, c, rfl, -⟩ := hlinked r' hr'
      cases hlive
  · intro x hx z hz
    obtain rfl : l = z := by simpa using hz
    exact (hlast x hx).1
  · intro z hz r hr
    obtain rfl : l = z := by simpa using hz
    rw [hnew] at hr
    exact (Option.some.inj hr).symm
  · exact hpairs h.drawn (fun _ _ => Nat.le_trans) fun x hx => (hlast x hx).2.1
  · exact hpairs h.expires (fun _ _ => Nat.le_trans) fun x hx => (hlast x hx).2.2.1
  · exact hpairs h.user (fun _ _ => Eq.trans) fun x hx => (hlast x hx).2.2.2
  · refine List.pairwise_append.mpr ⟨h.tail.imp_of_mem ?_, List.pairwise_singleton _ _, ?_⟩
    · intro x z hx hz htail hthere hclock'
      have hstays (y : Link) (hy : y ∈ chain) : s'.db.refreshTokens.committed y.id ≠ none ↔
          s.db.refreshTokens.committed y.id ≠ none := by
        rcases hrows y hy with heq | ⟨r', hr', -, hthere'⟩
        · rw [heq]
        · simp [hr', hthere']
      exact (hstays z hz).mpr (htail ((hstays x hx).mp hthere) (Nat.lt_of_le_of_lt hclock hclock'))
    · intro x _ z hz _ _
      obtain rfl : z = l := by simpa using hz
      simp [hnew]

/-- A row of the family is as it was inserted, and the last, or it was rotated. -/
theorem Line.cases (h : Line setup s chain) (hl : l ∈ chain) {r : RefreshToken}
    (hr : s.db.refreshTokens.committed l.id = some r) :
    chain.getLast? = some l ∧ r = l.row ∨
      ∃ before z rest, chain = before ++ l :: z :: rest ∧ Linked setup s l z := by
  obtain ⟨before, rest, rfl⟩ := List.append_of_mem hl
  cases rest with
  | nil => exact .inl ⟨by simp, h.last l (by simp) r hr⟩
  | cons z rest =>
      exact .inr ⟨before, z, rest, rfl, (List.isChain_append_cons_cons.mp h.linked).2.1⟩

/-- A rotation comes before the tokens that follow are drawn. -/
theorem Line.rotated_before (h : Line setup s chain) : chain.Pairwise fun x z =>
    ∀ r now, s.db.refreshTokens.committed x.id = some r → r.rotatedAt = some now →
      now ≤ z.drawnAt := by
  have hlinked := h.linked
  have hdrawn := h.drawn
  clear h
  induction chain with
  | nil => exact .nil
  | cons x rest ih =>
      obtain ⟨hx, hdrawn⟩ := List.pairwise_cons.mp hdrawn
      refine List.pairwise_cons.mpr ⟨fun z hz r now hr hnow => ?_, ih hlinked.tail hdrawn⟩
      cases rest with
      | nil => cases hz
      | cons y rest =>
          obtain ⟨now', c, rfl, -, -, hbefore⟩ := (List.isChain_cons_cons.mp hlinked).1 r hr
          cases hnow
          rcases List.mem_cons.mp hz with rfl | hz
          · exact hbefore
          · exact Nat.le_trans hbefore ((List.pairwise_cons.mp hdrawn).1 z hz)

theorem Line.drawn_before (h : Line setup s chain) (hlive : l.row.rotatedAt = none) (hl : l ∈ chain)
    {r : RefreshToken} {now : Time} (hr : s.db.refreshTokens.committed l.id = some r)
    (hnow : r.rotatedAt = some now) : l.drawnAt ≤ now := by
  rcases h.cases hl hr with ⟨-, rfl⟩ | ⟨before, z, rest, -, hlinked⟩
  · rw [hlive] at hnow
    cases hnow
  · obtain ⟨now', c, rfl, -, hafter, -⟩ := hlinked r hr
    cases hnow
    exact hafter

/-! ## What a link stands for -/

theorem Issued.later (h : Issued setup s l) (hlater : Later setup traced s s') :
    Issued setup s' l :=
  { h with
    minted := Lasting.minted _ s s' hlater h.minted
    logged := hlater.log.subset h.logged }

theorem Issued.record (h : Issued setup s l) : s.db.refreshTokens.Record l.id l.row :=
  .inr ⟨l.thread, h.logged⟩

theorem Issued.sameIssue (h : Issued setup s l) (hwf : s.WellFormed setup traced)
    {r : RefreshToken} (hr : s.db.refreshTokens.Record l.id r) : l.row.SameIssue r :=
  hwf.coherent l.id l.row r h.record hr

theorem Genealogy.eq_of_thread (h : Genealogy setup s links) (hx : x ∈ links) (hz : z ∈ links)
    (heq : x.thread = z.thread) : x = z := by
  by_contra hne
  have hsymm : Std.Symm fun x z : Link => x.thread ≠ z.thread := ⟨fun _ _ h => h.symm⟩
  exact h.threads.forall hx hz hne heq

/-- Tokens are drawn once, and by a thread that inserts one row. -/
theorem Genealogy.eq_of_token (h : Genealogy setup s links) (hwf : s.WellFormed setup traced)
    (hx : x ∈ links) (hz : z ∈ links) (heq : x.row.token = z.row.token) : x = z := by
  have hminted := (h.issued x hx).minted
  have hminted' := (h.issued z hz).minted
  rw [(h.issued x hx).token, (h.issued z hz).token] at heq
  have htoken := hwf.drawn.seen_inj _ (hwf.drawn.minted_seen _ hminted) _
    (hwf.drawn.minted_seen _ hminted') heq
  exact h.eq_of_thread hx hz (Prod.mk.inj (hwf.drawn.minted_inj _ hminted _ hminted' htoken)).1

/-- The link of a committed row. -/
theorem Genealogy.link_of_committed (h : Genealogy setup s links) (hwf : s.WellFormed setup traced)
    {i : ℕ} {r : RefreshToken} (hi : s.db.refreshTokens.committed i = some r) :
    ∃ l ∈ links, l.id = i ∧ l.row.SameIssue r := by
  obtain ⟨e, he, heq⟩ := hwf.logged i r hi
  obtain ⟨l, hl, hid, hsame⟩ := h.complete e he r (by rw [heq])
  exact ⟨l, hl, by rw [hid, heq], hsame⟩

/-- The link of a live row is the last of its family. -/
theorem Genealogy.live (h : Genealogy setup s links) (hwf : s.WellFormed setup traced) {i : ℕ}
    {r : RefreshToken} (hi : s.db.refreshTokens.committed i = some r) (hlive : r.rotatedAt = none) :
    ∃ before l, familyOf r.familyId links = before ++ [l] ∧ l.id = i ∧ r = l.row := by
  obtain ⟨l, hl, rfl, hsame⟩ := h.link_of_committed hwf hi
  have hmem : l ∈ familyOf r.familyId links := mem_familyOf.mpr ⟨hl, hsame.2.2.1.symm⟩
  obtain ⟨before, heq⟩ := (h.line r.familyId).eq_append_of_live hmem hi hlive
  exact ⟨before, l, heq, rfl, (h.line r.familyId).last l (by simp [heq]) r hi⟩

/-! ## Steps -/

/-- Nothing is committed. -/
theorem Genealogy.same (h : Genealogy setup s links) (hlater : Later setup traced s s')
    (htraced : traced) (hcommitted : s'.db.refreshTokens.committed = s.db.refreshTokens.committed)
    (hlog : s'.db.refreshTokens.log = s.db.refreshTokens.log) : Genealogy setup s' links where
  issued l hl := (h.issued l hl).later hlater
  threads := h.threads
  ids := h.ids
  complete := hlog ▸ h.complete
  ordered := hlog ▸ h.ordered
  line f := (h.line f).same (hlater.clock htraced) fun _ _ => by rw [hcommitted]

/-- A commit logs new writes behind the old ones. -/
theorem Genealogy.ordered_append (h : Genealogy setup s links)
    {new : List (ℕ × ℕ × Option RefreshToken)} :
    links.Pairwise fun x z => ∀ past, past <+: s.db.refreshTokens.log ++ new →
      (∃ e ∈ past, e.2.1 = z.id) → (x.thread, x.id, some x.row) ∈ past := by
  refine h.ordered.imp_of_mem fun {x z} hx _ hordered past hpast hz => ?_
  rcases List.prefix_or_prefix_of_prefix hpast (List.prefix_append _ _) with hold | hold
  · exact hordered past hold hz
  · exact hold.subset (h.issued x hx).logged

/-- A removal leaves no hole before a row that has not expired. -/
theorem Genealogy.tail_of_removal (h : Genealogy setup s links) (hwf : s.WellFormed setup traced)
    (htraced : traced) (hmay : MayCommit traced t s) (hdeleting : Deleting t s) (f : ℕ) :
    (familyOf f links).Pairwise fun x z =>
      (s.db.refreshTokens.commit t).committed x.id ≠ none → s.clock < x.row.expiresAt →
        (s.db.refreshTokens.commit t).committed z.id ≠ none := by
  have hline := h.line f
  refine (((hline.tail.and hline.expires).and (hline.user.and (h.ordered.filter _))).imp_of_mem ?_)
  rintro x z hx hz ⟨⟨htail, hexpires⟩, huser, hordered⟩ hthere hclock hgone
  obtain ⟨hxl, hxf⟩ := mem_familyOf.mp hx
  obtain ⟨hzl, hzf⟩ := mem_familyOf.mp hz
  -- the commit removes `z` and keeps `x`
  have hkept : s.db.refreshTokens.committed x.id ≠ none ∧
      s.db.refreshTokens.pending x.id ≠ some (t, none) := by
    rcases s.db.refreshTokens.commit_committed_cases (t := t) (i := x.id) with
      ⟨version, hversion, heq⟩ | ⟨hnot, heq⟩
    · rw [hdeleting x.id version hversion] at heq
      exact (hthere heq).elim
    · exact ⟨heq ▸ hthere, hnot none⟩
  obtain ⟨r, hr⟩ := Option.ne_none_iff_exists'.mp (htail hkept.1 hclock)
  have hremoved : s.db.refreshTokens.pending z.id = some (t, none) := by
    rcases s.db.refreshTokens.commit_committed_cases (t := t) (i := z.id) with
      ⟨version, hversion, -⟩ | ⟨-, heq⟩
    · exact hdeleting z.id version hversion ▸ hversion
    · rw [heq, hr] at hgone
      cases hgone
  rcases hmay.closed htraced with hlapsed | ⟨w, hw, past, hpast, hsatisfied, herased⟩
  · obtain ⟨e, he, r', hr', htoken, hexpired⟩ := hlapsed z.id hremoved r hr
    obtain ⟨y, hy, -, hsame⟩ := h.complete e he r' hr'
    have hissue := (h.issued z hzl).sameIssue hwf (.inl (.inl hr))
    obtain rfl : y = z := h.eq_of_token hwf hy hzl (by rw [← hsame.1, htoken, hissue.1])
    rw [hsame.2.2.2] at hexpired
    exact Nat.not_le_of_lt hclock (Nat.le_trans hexpires hexpired)
  · obtain ⟨e, he, hid, rz, hrz, hholds⟩ := hsatisfied z.id hremoved
    have hx' := hordered past hpast ⟨e, he, hid⟩
    have hissue := (h.issued z hzl).sameIssue hwf (r := rz)
      (.inr ⟨e.1, by rw [← hid, ← hrz]; exact hpast.subset he⟩)
    have hsame : SameFamily x.row rz :=
      ⟨hissue.2.1.trans huser.symm, hissue.2.2.1.trans (hzf.trans hxf.symm)⟩
    have hholds' : Condition.holds w x.id x.row = true := by
      rw [holds_of_sameFamily hw hsame x.id z.id, hholds]
    rcases herased _ hx' x.row rfl hholds' with hpending | ⟨-, hnone⟩
    · exact hkept.2 hpending
    · obtain ⟨rx, hrx⟩ := Option.ne_none_iff_exists'.mp hkept.1
      exact hnone rx (.inl hrx)

/-- A commit that only removes rows. -/
theorem Genealogy.removal (h : Genealogy setup s links) (hwf : s.WellFormed setup traced)
    (htraced : traced) (hlater : Later setup traced s s') (hmay : MayCommit traced t s)
    (hdeleting : Deleting t s) (htable : s'.db.refreshTokens = s.db.refreshTokens.commit t) :
    Genealogy setup s' links where
  issued l hl := (h.issued l hl).later hlater
  threads := h.threads
  ids := h.ids
  complete e he r hr := by
    rw [htable, Table.commit_log] at he
    rcases List.mem_append.mp he with he | he
    · exact h.complete e he r hr
    · have hpending := (Table.mem_writes.mp he).2
      rw [hr] at hpending
      exact (hdeleting.claimed _ r hpending).elim
  ordered := by
    rw [htable, Table.commit_log]
    exact h.ordered_append
  line f := by
    refine (h.line f).mono (fun l _ r hr => ?_) ?_
    · rw [htable] at hr
      exact (Table.commit_committed_eq_some hr).elim
        (fun hpending => (hdeleting.claimed _ r hpending).elim) fun hold => hold.1
    · rw [htable]
      refine (h.tail_of_removal hwf htraced hmay hdeleting f).imp fun htail hthere hclock => ?_
      exact htail hthere (Nat.lt_of_le_of_lt (hlater.clock htraced) hclock)

/-- A commit that inserts the row of `l`, with or without a claim. -/
theorem Genealogy.extend (h : Genealogy setup s links) (hwf : s.WellFormed setup traced)
    (htraced : traced) (hlater : Later setup traced s s') (hsilent : Silent t s)
    (htable : s'.db.refreshTokens = s.db.refreshTokens.commit t) (hissued : Issued setup s' l)
    (hthread : l.thread = t) (hpending : s.db.refreshTokens.pending l.id = some (t, some l.row))
    (hnone : s.db.refreshTokens.committed l.id = none)
    (hclaimed : ∀ k version, s.db.refreshTokens.pending k = some (t, version) → k = l.id ∨
      ∃ r r', version = some r' ∧ s.db.refreshTokens.committed k = some r ∧ r.SameIssue r' ∧
        r.rotatedAt = none ∧ r.familyId = l.row.familyId)
    (hlast : ∀ x, (familyOf l.row.familyId links).getLast? = some x → Linked setup s' x l ∧
      x.drawnAt ≤ l.drawnAt ∧ x.row.expiresAt ≤ l.row.expiresAt ∧ x.row.userId = l.row.userId) :
    Genealogy setup s' (links ++ [l]) := by
  have hunborn : ∀ e ∈ s.db.refreshTokens.log, e.2.1 ≠ l.id :=
    hwf.refreshTokens.unborn l.id _ hpending hnone
  have hfresh (y : Link) (hy : y ∈ links) : y.id ≠ l.id := hunborn _ (h.issued y hy).logged
  have hrows (y : Link) (hy : y ∈ links) :
      s'.db.refreshTokens.committed y.id = s.db.refreshTokens.committed y.id ∨
        ∃ r, s.db.refreshTokens.committed y.id = some r ∧ r.rotatedAt = none ∧
          r.familyId = l.row.familyId ∧ s'.db.refreshTokens.committed y.id ≠ none := by
    rw [htable]
    rcases s.db.refreshTokens.commit_committed_cases (t := t) (i := y.id) with
      ⟨version, hversion, heq⟩ | ⟨-, heq⟩
    · obtain ⟨r, r', rfl, hr, -, hlive, hfamily⟩ :=
        (hclaimed y.id version hversion).resolve_left (hfresh y hy)
      exact .inr ⟨r, hr, hlive, hfamily, by simp [heq]⟩
    · exact .inl heq
  have hpairs {R : Link → Link → Prop} (hlinks : links.Pairwise R) (hend : ∀ x ∈ links, R x l) :
      (links ++ [l]).Pairwise R := by
    refine List.pairwise_append.mpr ⟨hlinks, List.pairwise_singleton _ _, fun x hx z hz => ?_⟩
    exact List.mem_singleton.mp hz ▸ hend x hx
  refine ⟨fun y hy => ?_, ?_, ?_, fun e he r hr => ?_, ?_, fun f => ?_⟩
  · rcases List.mem_append.mp hy with hy | hy
    · exact (h.issued y hy).later hlater
    · exact List.mem_singleton.mp hy ▸ hissued
  · exact hpairs h.threads fun x hx heq => hsilent _ (h.issued x hx).logged (heq.trans hthread)
  · exact hpairs h.ids hfresh
  · rw [htable, Table.commit_log] at he
    rcases List.mem_append.mp he with he | he
    · obtain ⟨y, hy, hrest⟩ := h.complete e he r hr
      exact ⟨y, List.mem_append_left _ hy, hrest⟩
    · have hpending' := (Table.mem_writes.mp he).2
      rcases hclaimed _ _ hpending' with heq | ⟨r₀, r', heq, hr₀, hsame, -⟩
      · rw [heq, hpending] at hpending'
        rw [hr] at hpending'
        cases hpending'
        exact ⟨l, by simp, heq.symm, .refl _⟩
      · rw [hr] at heq
        cases heq
        obtain ⟨y, hy, hid, hsame'⟩ := h.link_of_committed hwf hr₀
        exact ⟨y, List.mem_append_left _ hy, hid, hsame'.trans hsame⟩
  · rw [htable, Table.commit_log]
    refine hpairs h.ordered_append fun x hx past hpast ⟨e, he, hid⟩ => ?_
    rcases List.prefix_or_prefix_of_prefix hpast (List.prefix_append _ _) with hold | hold
    · exact (hunborn e (hold.subset he) hid).elim
    · exact hold.subset (h.issued x hx).logged
  · rw [familyOf_append]
    split
    · rename_i hfamily
      subst hfamily
      refine (h.line _).append (hlater.clock htraced) ?_ hlast fun y hy => ?_
      · rw [htable, Table.commit_committed_of_pending hpending]
      · exact (hrows y (mem_familyOf.mp hy).1).imp_right fun ⟨r, hr, hlive, _, hthere⟩ =>
          ⟨r, hr, hlive, hthere⟩
    · rename_i hfamily
      rw [List.append_nil]
      refine (h.line f).same (hlater.clock htraced) fun y hy => ?_
      obtain ⟨hy, hyf⟩ := mem_familyOf.mp hy
      refine (hrows y hy).resolve_right fun ⟨r, hr, _, hrf, _⟩ => hfamily ?_
      have hissue := (h.issued y hy).sameIssue hwf (.inl (.inl hr))
      rw [← hrf, hissue.2.2.1, hyf]

/-- The commit of a rotation. -/
theorem Genealogy.succession (h : Genealogy setup s links) (hwf : s.WellFormed setup traced)
    (htraced : traced) (hlater : Later setup traced s s')
    (htable : s'.db.refreshTokens = s.db.refreshTokens.commit t) {i j : ℕ} {r row : RefreshToken}
    {token y : String} {now m : Time} {c : Bytes}
    (hclaims : Claims setup traced t i r token now y m c s) (hne : j ≠ i)
    (hpending : s.db.refreshTokens.pending j = some (t, some row))
    (hnone : s.db.refreshTokens.committed j = none) (hrow : Succession setup now y r row)
    (honly : ∀ k version, s.db.refreshTokens.pending k = some (t, version) → k = i ∨ k = j) :
    Genealogy setup s' (links ++ [⟨t, j, y, m, row⟩]) := by
  have hafter := hclaims.drew.after htraced
  have hfamily : r.familyId = row.familyId := by rw [hrow]
  have hclock := hlater.clock htraced
  refine h.extend hwf htraced hlater hclaims.silent htable ?_ rfl hpending hnone
    (fun k version hk => ?_) fun x hx => ?_
  · constructor
    case minted => exact Lasting.minted _ s s' hlater hclaims.drew.minted
    case logged =>
      rw [htable, Table.commit_log]
      exact List.mem_append_right _ (Table.mem_writes.mpr ⟨rfl, hpending⟩)
    case expires =>
      rw [hrow]
      exact Nat.add_le_add_right hafter _
    all_goals rw [hrow]
  · rcases honly k version hk with rfl | rfl
    · rw [hclaims.pending] at hk
      cases hk
      exact .inr ⟨r, _, rfl, hclaims.committed, ⟨rfl, rfl, rfl, rfl⟩, hclaims.live, hfamily⟩
    · exact .inl rfl
  · obtain ⟨before, l, hchain, hid, heq⟩ := h.live hwf hclaims.committed hclaims.live
    obtain rfl : l = x := by
      have hx' : (familyOf r.familyId links).getLast? = some x := hfamily ▸ hx
      simpa [hchain] using hx'
    subst heq
    have hl : l ∈ links := (mem_familyOf.mp (hchain ▸ List.mem_append_right _ (.head _))).1
    have hissued := h.issued l hl
    obtain ⟨hseen, htime⟩ := hclaims.drew.presented
    have htoken : token = l.token := hwf.drawn.seen_inj _ hseen _
      (hwf.drawn.minted_seen _ hissued.minted) (hclaims.token.symm.trans hissued.token)
    have hdrawn : l.drawnAt ≤ now := (htime htraced).2 _ hissued.minted
      (hissued.token.symm.trans hclaims.token)
    refine ⟨fun r' hr' => ?_, Nat.le_trans hdrawn hafter, ?_, by rw [hrow]⟩
    · rw [htable, hid, Table.commit_committed_of_pending hclaims.pending] at hr'
      cases hr'
      exact ⟨now, c, rfl, htoken ▸ hclaims.drew.sealed, hdrawn, hafter⟩
    · rw [hrow]
      exact Nat.le_trans hissued.expires (Nat.add_le_add_right hdrawn _)

/-- The commit of a login. -/
theorem Genealogy.opening (h : Genealogy setup s links) (hs : Consistent setup traced s)
    (hwf : s.WellFormed setup traced) (htraced : traced) (hlater : Later setup traced s s')
    (htable : s'.db.refreshTokens = s.db.refreshTokens.commit t) {j : ℕ} {row : RefreshToken}
    {y : String} {m : Time} (hsilent : Silent t s) (hopening : Opening setup t y m row s)
    (hpending : s.db.refreshTokens.pending j = some (t, some row))
    (hnone : s.db.refreshTokens.committed j = none)
    (honly : ∀ k version, s.db.refreshTokens.pending k = some (t, version) → k = j) :
    Genealogy setup s' (links ++ [⟨t, j, y, m, row⟩]) := by
  obtain ⟨hminted, hfamily, hrow⟩ := hopening
  refine h.extend hwf htraced hlater hsilent htable ?_ rfl hpending hnone
    (fun k version hk => .inl (honly k version hk)) fun x hx => ?_
  · constructor
    case minted => exact Lasting.minted _ s s' hlater hminted
    case logged =>
      rw [htable, Table.commit_log]
      exact List.mem_append_right _ (Table.mem_writes.mpr ⟨rfl, hpending⟩)
    case expires => rw [hrow]
    all_goals rw [hrow]
  · -- nobody else has inserted a row of the new family
    obtain ⟨hx, hxf⟩ := mem_familyOf.mp (List.mem_of_getLast? hx)
    have hissued := h.issued x hx
    have hfamily' : (t, x.row.familyId) ∈ s.families := hxf.symm ▸ hfamily
    have hxpending := hs.unopened x.id x.row hissued.record t hfamily' hsilent
    obtain rfl := honly x.id _ hxpending
    exact (hwf.refreshTokens.unborn x.id _ hpending hnone _ hissued.logged rfl).elim

/-- Every step keeps the genealogy. -/
theorem Genealogy.step (h : Genealogy setup s links) (hs : Consistent setup traced s)
    (hwf : s.WellFormed setup traced) (htraced : traced)
    (hstep : Step setup traced opens A t s s') : ∃ links', Genealogy setup s' links' := by
  have hlater := hstep.later
  rcases hstep.effect.committed with ⟨hcommitted, hlog⟩ | ⟨hmay, htable⟩
  · exact ⟨links, h.same hlater htraced hcommitted hlog⟩
  · cases hs.holding t with
    | deleting hdeleting => exact ⟨links, h.removal hwf htraced hlater hmay hdeleting htable⟩
    | claiming i r x now y m c hclaims honly =>
        obtain ⟨j, r', hj, hlive⟩ := hmay.claimed i _ hclaims.pending nofun
        obtain rfl := honly j _ hj
        rw [hclaims.pending] at hj
        cases hj
        cases hlive
    | succeeding i r x now y m c j row hclaims hne hj hnone hrow honly =>
        exact ⟨_, h.succession hwf htraced hlater htable hclaims hne hj hnone hrow honly⟩
    | opening y m j row hsilent hopening hj hnone honly =>
        exact ⟨_, h.opening hs hwf htraced hlater htable hsilent hopening hj hnone honly⟩

/-! ## The theorem -/

/-- The clock does not go back. -/
def timely : Assumption ℕ Request State where
  request _ _ _ := True
  move s s' := s.clock ≤ s'.clock

/-- The rows of family `f` as a chain: which rows are live, what the others seal, and which of
them are left. -/
structure Family (setup : Setup) (s : State) (f : ℕ) (chain : List Link) : Prop where
  rows : ∀ i r, s.db.refreshTokens.committed i = some r → r.familyId = f → ∃ l ∈ chain, l.id = i
  links : ∀ l ∈ chain, l.row.familyId = f ∧ l.row.token = hashToken setup l.token ∧
    ∀ r, s.db.refreshTokens.committed l.id = some r → l.row.SameIssue r
  distinct : chain.Pairwise fun x z => x.id ≠ z.id ∧ x.row.token ≠ z.row.token
  user : chain.Pairwise fun x z => x.row.userId = z.row.userId
  live : ∀ l ∈ chain, ∀ r, s.db.refreshTokens.committed l.id = some r →
    (r.rotatedAt = none ↔ chain.getLast? = some l) ∧
      (r.rotatedAt = none ↔ r.successorCiphertext = none)
  opens : chain.IsChain fun x z => ∀ r, s.db.refreshTokens.committed x.id = some r →
    ∃ c, r.successorCiphertext = some c ∧ openSuccessor setup x.token r.token c = some z.token ∧
      ∀ i r', s.db.refreshTokens.committed i = some r' →
        (r'.token = hashToken setup z.token ↔ i = z.id)
  expires : chain.Pairwise fun x z => x.row.expiresAt ≤ z.row.expiresAt
  rotated : chain.Pairwise fun x z => ∀ r r' now now',
    s.db.refreshTokens.committed x.id = some r → s.db.refreshTokens.committed z.id = some r' →
      r.rotatedAt = some now → r'.rotatedAt = some now' → now ≤ now'
  tail : chain.Pairwise fun x z => s.db.refreshTokens.committed x.id ≠ none →
    s.clock < x.row.expiresAt → s.db.refreshTokens.committed z.id ≠ none

theorem Seals.opened (hcrypto : setup.crypto.Authenticates) (hwf : s.WellFormed setup traced)
    {x y : String} {c : Bytes} (h : Seals setup x y c) (hy : ∃ z ∈ s.minted, z.2.1 = y) :
    openSuccessor setup x (hashToken setup x) c = some y := by
  obtain ⟨iv, hiv, rfl⟩ := h
  obtain ⟨z, hz, rfl⟩ := hy
  obtain ⟨bytes, hlength, heq⟩ := hwf.drawn.minted_hex z hz
  rw [heq]
  exact openSuccessor_sealWith hcrypto hiv (by rintro rfl; cases hlength) _ _ _

theorem Genealogy.family (h : Genealogy setup s links) (hcrypto : setup.crypto.Authenticates)
    (hwf : s.WellFormed setup traced) (f : ℕ) : Family setup s f (familyOf f links) := by
  have hline := h.line f
  refine ⟨fun i r hi hf => ?_, fun l hl => ?_, ?_, hline.user, fun l hl r hr => ?_, ?_,
    hline.expires, ?_, hline.tail⟩
  · obtain ⟨l, hl, hid, hsame⟩ := h.link_of_committed hwf hi
    exact ⟨l, mem_familyOf.mpr ⟨hl, hsame.2.2.1.symm.trans hf⟩, hid⟩
  · obtain ⟨hl, hlf⟩ := mem_familyOf.mp hl
    exact ⟨hlf, (h.issued l hl).token, fun r hr =>
      (h.issued l hl).sameIssue hwf (.inl (.inl hr))⟩
  · refine (h.ids.filter _).imp_of_mem fun {x z} hx hz hid => ⟨hid, fun htoken => hid ?_⟩
    rw [h.eq_of_token hwf (List.mem_filter.mp hx).1 (List.mem_filter.mp hz).1 htoken]
  · have hissued := h.issued l (mem_familyOf.mp hl).1
    rcases hline.cases hl hr with ⟨hlast, rfl⟩ | ⟨before, z, rest, heq, hlinked⟩
    · simp [hlast, hissued.live, hissued.unsealed]
    · obtain ⟨now, c, rfl, -⟩ := hlinked r hr
      refine ⟨⟨nofun, fun hlast => ?_⟩, by simp⟩
      have hrow := hline.last l hlast _ hr
      have hlive := hissued.live
      rw [← hrow] at hlive
      cases hlive
  · refine hline.linked.imp_of_mem_imp fun x z hx hz hlinked r hr => ?_
    obtain ⟨now, c, rfl, hseals, -⟩ := hlinked r hr
    have hx := h.issued x (mem_familyOf.mp hx).1
    have hz' := (mem_familyOf.mp hz).1
    refine ⟨c, rfl, ?_, fun i r' hi => ⟨fun htoken => ?_, ?_⟩⟩
    · exact hx.token ▸ Seals.opened hcrypto hwf hseals ⟨_, (h.issued z hz').minted, rfl⟩
    · obtain ⟨y, hy, rfl, hsame⟩ := h.link_of_committed hwf hi
      rw [h.eq_of_token hwf hy hz' (by rw [← hsame.1, htoken, (h.issued z hz').token])]
    · rintro rfl
      exact ((h.issued z hz').sameIssue hwf (.inl (.inl hi))).1.trans (h.issued z hz').token
  · refine hline.rotated_before.imp_of_mem
      fun {x z} _ hz hbefore r r' now now' hr hr' hnow hnow' => ?_
    exact Nat.le_trans (hbefore r now hr hnow) (hline.drawn_before
      (h.issued z (mem_familyOf.mp hz).1).live hz hr' hnow')

theorem genealogy_of_initial (h : s.Initial) : Genealogy setup s [] where
  issued := by simp
  threads := .nil
  ids := .nil
  complete := by simp [h.refreshTokens, Table.empty]
  ordered := .nil
  line _ := ⟨.nil, by simp [familyOf], .nil, .nil, .nil, .nil⟩

/-- The sessions after any run. -/
theorem genealogy_of_reaches {operation : ℕ → Operation} {s₀ : State}
    {c : Config ℕ Error Request Request.Reply State Unit} (hinit : s₀.Initial)
    (hclock : ∀ s s', A.move s s' → s.clock ≤ s'.clock)
    (hrun : (system setup).Reaches A (launch setup operation s₀) c) :
    c.shared.WellFormed setup True ∧ Consistent setup True c.shared ∧
      ∃ links, Genealogy setup c.shared links := by
  have hclock' (s s' : State) (hmove : A.move s s') (_ : True) : s.clock ≤ s'.clock :=
    hclock s s' hmove
  have hsound : Sound setup True (fun _ => True) A operation s₀ (launch setup operation s₀) :=
    sound_of_initial hinit
  refine ⟨(hsound.reaches hclock' hrun).1, ?_⟩
  have hstart : Consistent setup True s₀ ∧ ∃ links, Genealogy setup s₀ links :=
    ⟨consistent_of_initial hinit, [], genealogy_of_initial hinit⟩
  refine hsound.induction (P := fun s => Consistent setup True s ∧ ∃ links, Genealogy setup s links)
    hclock' hrun hstart ?_
  rintro t s s' hs hs' ⟨hconsistent, links, hlinks⟩ hstep
  exact ⟨hconsistent.step hs hs' hstep, hlinks.step hconsistent hs trivial hstep⟩

/-- Whatever the operations do, every family is a chain with at most one live row, and what is
left of it unexpired is the end of the chain. -/
theorem families_are_chains {operation : ℕ → Operation} {s₀ : State}
    {c : Config ℕ Error Request Request.Reply State Unit} (hcrypto : setup.crypto.Authenticates)
    (hinit : s₀.Initial) (hrun : (system setup).Reaches timely (launch setup operation s₀) c) :
    (∀ i j r r', c.shared.db.refreshTokens.committed i = some r →
      c.shared.db.refreshTokens.committed j = some r' → r.rotatedAt = none →
        r'.rotatedAt = none → r.familyId = r'.familyId → i = j) ∧
      ∀ f, ∃ chain, Family setup c.shared f chain := by
  obtain ⟨hwf, hconsistent, links, hlinks⟩ := genealogy_of_reaches hinit (fun _ _ h => h) hrun
  exact ⟨hconsistent.single, fun f => ⟨familyOf f links, hlinks.family hcrypto hwf f⟩⟩

/-- A login in thread 0 and a rotation of its token in thread 1. -/
def signInAndRotate : ℕ → Operation
  | 0 => .login "ada@example.com" "old"
  | 1 => .refreshAccessToken (sampleToken 1)
  | _ => .idle

def rotated : Config ℕ Error Request Request.Reply State Unit :=
  (system plainSetup).after (launch plainSetup signInAndRotate (plainState (oneRow 5 sampleUser)))
    ([(0, {}), (0, { bytes := List.replicate 64 1 }), (0, { number := 7 }), (0, { fresh := 1 }),
      (0, {}), (1, {}), (1, {}), (1, {}), (1, {}), (1, { bytes := List.replicate 64 2 }),
      (1, { bytes := List.replicate 12 0 }), (1, {}), (1, {}), (1, {}), (1, { fresh := 2 }),
      (1, {}), (1, {})].map fun x => .run x.1 x.2)

theorem plainCrypto_authenticates : plainCrypto.Authenticates :=
  ⟨fun _ _ _ _ => rfl, fun _ _ _ _ => rfl, fun _ _ _ _ => rfl⟩

theorem families_are_chains_rotated :
    (rotated.shared.db.refreshTokens.committed 1).any (fun r => r.rotatedAt = some 0) = true ∧
      (rotated.shared.db.refreshTokens.committed 2).any (fun r => r.rotatedAt = none) = true ∧
      ∃ chain, Family plainSetup rotated.shared 7 chain := by
  refine ⟨by decide +kernel, by decide +kernel, (families_are_chains plainCrypto_authenticates
    (plainState_initial (oneRow_atRest 5 sampleUser)) (.of_schedule (fun l hl _ _ => ?_)
      (by decide +kernel))).2 7⟩
  obtain ⟨x, -, rfl⟩ := List.mem_map.mp hl
  exact fun _ _ _ => trivial

end ExpressCore.Session
