/-
# No peon is left behind

When a peon handles a BEGIN, it has committed what the leader had when it
proposed, and a COMMIT carries the versions right after its last one, so that
neither fails its assertions. The leader brings a peon up to date when it
handles its LAST. It works if each LAST counted is an answer to the current
collect, from a peon not counted yet, and if the leader itself learns of newer
versions before it has counted any: a peon counted before that is not told.

The invariant follows the link from the leader to a peon: `View` is what the
peon has, and will have after each message in flight.
-/
import Ceph.Mon.Epoch

namespace Ceph
namespace Paxos

open List Cluster
open Option hiding max_eq_left max_eq_right

/-! ### The link to a peon -/

/-- The numbers of a peon that matter here. -/
structure View where
  lastCommitted : ℕ
  acceptedPn : ℕ

/-- What a peon has after a message. -/
def View.after (v : View) (c : MMonPaxos) : View :=
  match c.op with
  | .collect => { v with acceptedPn := max v.acceptedPn c.pn }
  | .commit => { v with lastCommitted := v.lastCommitted + c.values.length }
  | _ => v

/-- A BEGIN finds the peon at its number and version, a COMMIT carries the next
versions. -/
def Welcome (v : View) (c : MMonPaxos) : Prop :=
  match c.op with
  | .begin => c.pn = v.acceptedPn ∧ c.lastCommitted = v.lastCommitted
  | .commit => c.values ≠ [] ∧ c.values.map Prod.fst = List.range' (v.lastCommitted + 1) c.values.length
  | _ => True

/-- Every message on the link is welcome when its turn comes. -/
abbrev Flows : View → List MMonPaxos → Prop := Chain View.after Welcome

/-- What the peon has when it has handled all of the link. -/
def View.final (v : View) (out : List MMonPaxos) : View := out.foldl View.after v

/-- The numbers and versions of the LASTs with which the peon will answer. -/
def foretold (v : View) : List MMonPaxos → List (ℕ × ℕ)
  | [] => []
  | c :: out =>
    (if c.op = .collect then [(max v.acceptedPn c.pn, v.lastCommitted)] else []) ++ foretold (v.after c) out

/-- The same of the LASTs that are on their way back. -/
def answered (back : List MMonPaxos) : List (ℕ × ℕ) :=
  (back.filter fun c => c.op = .last).map fun c => (c.pn, c.lastCommitted)

theorem foretold_append (v : View) (out out' : List MMonPaxos) :
    foretold v (out ++ out') = foretold v out ++ foretold (v.final out) out' := by
  induction out generalizing v with
  | nil => rfl
  | cons c out ih =>
    simp only [cons_append, foretold, ih, List.append_assoc]
    rfl

theorem View.final_append (v : View) (out out' : List MMonPaxos) :
    v.final (out ++ out') = (v.final out).final out' := foldl_append ..

/-- A peon and its links, when the leader has picked `P` and committed `K`. A peon
that is `counted` will have both when it has handled its link. The LASTs that a
peon not counted has sent, or will send, still tell the version it will have,
unless their number is too low to be one of this collect. -/
structure PeonOk (P K : ℕ) (counted : Prop) (v : View) (out : List MMonPaxos) (lasts : List (ℕ × ℕ)) :
    Prop where
  fits : Flows v out
  asked : ∀ c ∈ out, c.op = .collect → c.pn ≤ P
  bounds : ∀ r ∈ lasts ++ foretold v out, r.1 ≤ (v.final out).acceptedPn ∧
    (v.final out).acceptedPn ≤ max r.1 P
  pending : ¬ counted → ∀ r ∈ lasts ++ foretold v out, P ≤ r.1 → r.2 = (v.final out).lastCommitted
  synced : counted → (v.final out).lastCommitted = K ∧ (v.final out).acceptedPn = P

section peon

variable {P K : ℕ} {counted : Prop} {v : View} {out : List MMonPaxos} {lasts : List (ℕ × ℕ)}

variable {c : MMonPaxos}

/-- **The peon handles a message**, and answers a COLLECT. -/
theorem PeonOk.handled (h : PeonOk P K counted v (c :: out) lasts) :
    PeonOk P K counted (v.after c) out
      (lasts ++ if c.op = .collect then [(max v.acceptedPn c.pn, v.lastCommitted)] else []) := by
  obtain ⟨h1, h2, h3, h4, h5⟩ := h
  refine ⟨h1.2, fun c' hc' => h2 c' (mem_cons_of_mem c hc'), ?_, ?_, h5⟩
  · rw [List.append_assoc]
    exact h3
  · rw [List.append_assoc]
    exact h4

theorem PeonOk.idle (h : PeonOk P K counted v out lasts) (hc : Welcome (v.final out) c)
    (hop : c.op ≠ .collect) (hop' : c.op ≠ .commit) : PeonOk P K counted v (out ++ [c]) lasts := by
  have hafter : (v.final out).after c = v.final out := by
    unfold View.after
    split <;> first | contradiction | rfl
  have hfinal : v.final (out ++ [c]) = v.final out := by
    rw [View.final_append]
    exact hafter
  have hfore : foretold v (out ++ [c]) = foretold v out := by
    rw [foretold_append]
    simp [foretold, hop]
  refine ⟨(chain_append _ _ v).mpr ⟨h.fits, hc, trivial⟩, ?_, ?_, ?_, ?_⟩
  · intro c' hc' hcol
    rcases mem_append.mp hc' with hc' | hc'
    · exact h.asked c' hc' hcol
    · rw [mem_singleton.mp hc'] at hcol
      exact absurd hcol hop
  · rw [hfinal, hfore]
    exact h.bounds
  · rw [hfinal, hfore]
    exact h.pending
  · rw [hfinal]
    exact h.synced

/-- **A COLLECT** with a higher number: nobody is counted. -/
theorem PeonOk.collect (h : PeonOk P K counted v out lasts) (hop : c.op = .collect)
    (hlt : P < c.pn) (K' : ℕ) : PeonOk c.pn K' False v (out ++ [c]) lasts := by
  have hafter : v.final (out ++ [c]) =
      { v.final out with acceptedPn := max (v.final out).acceptedPn c.pn } := by
    simp [View.final, View.after, hop]
  have hfore : foretold v (out ++ [c]) = foretold v out ++
      [(max (v.final out).acceptedPn c.pn, (v.final out).lastCommitted)] := by
    rw [foretold_append]
    simp [foretold, hop]
  have hwelcome : Welcome (v.final out) c := by
    unfold Welcome
    rw [hop]
    trivial
  refine ⟨(chain_append _ _ v).mpr ⟨h.fits, hwelcome, trivial⟩, ?_, ?_, ?_, fun hf => hf.elim⟩
  · intro c' hc' hcol
    rcases mem_append.mp hc' with hc' | hc'
    · exact (h.asked c' hc' hcol).trans hlt.le
    · rw [mem_singleton.mp hc']
  · intro r hr
    rw [hfore, ← List.append_assoc] at hr
    rw [hafter]
    dsimp only
    rcases mem_append.mp hr with hr | hr
    · obtain ⟨h1, h2⟩ := h.bounds r hr
      omega
    · rw [mem_singleton.mp hr]
      omega
  · intro _ r hr hle
    rw [hfore, ← List.append_assoc] at hr
    rw [hafter]
    rcases mem_append.mp hr with hr | hr
    · by_cases hcount : counted
      · have h1 := (h.bounds r hr).1
        rw [(h.synced hcount).2] at h1
        omega
      · exact h.pending hcount r hr (by omega)
    · rw [mem_singleton.mp hr]

/-- **A LAST is handled**, and the peon is told what it lacks: it will then have
the leader's version and the number of the LAST. -/
theorem PeonOk.told {r : ℕ × ℕ} (h : PeonOk P K False v out (r :: lasts)) (hle : P ≤ r.1)
    {share : List MMonPaxos} {K' : ℕ}
    (hshare : (K ≤ r.2 ∧ K' = r.2 ∧ share = []) ∨ (r.2 < K ∧ K' = K ∧ ∃ c, share = [c] ∧ c.op = .commit ∧
      c.values.map Prod.fst = List.range' (r.2 + 1) (K - r.2) ∧ c.values.length = K - r.2)) :
    PeonOk r.1 K' True v (out ++ share) lasts := by
  have hr : r.2 = (v.final out).lastCommitted := h.pending not_false r (by simp) hle
  have hacc : (v.final out).acceptedPn = r.1 := by
    obtain ⟨h1, h2⟩ := h.bounds r (by simp)
    omega
  have hbounds : ∀ r' ∈ lasts ++ foretold v out, r'.1 ≤ (v.final out).acceptedPn ∧
      (v.final out).acceptedPn ≤ max r'.1 r.1 := by
    intro r' hr'
    obtain ⟨h1, h2⟩ := h.bounds r' (mem_cons_of_mem r hr')
    omega
  rcases hshare with ⟨_, rfl, rfl⟩ | ⟨hlt, rfl, c, rfl, hop, hvals, hlen⟩
  · rw [append_nil]
    exact ⟨h.fits, fun c hc hcol => (h.asked c hc hcol).trans hle, hbounds, fun hn => absurd trivial hn,
      fun _ => ⟨hr.symm, hacc⟩⟩
  · have hwelcome : Welcome (v.final out) c := by
      unfold Welcome
      rw [hop]
      refine ⟨fun hnil => ?_, ?_⟩
      · rw [hnil, length_nil] at hlen
        omega
      · rw [hvals, ← hr, hlen]
    have hafter : v.final (out ++ [c]) =
        { v.final out with lastCommitted := (v.final out).lastCommitted + (K' - r.2) } := by
      simp [View.final, View.after, hop, hlen]
    have hfore : foretold v (out ++ [c]) = foretold v out := by
      rw [foretold_append]
      simp [foretold, hop]
    refine ⟨(chain_append _ _ v).mpr ⟨h.fits, hwelcome, trivial⟩, ?_, ?_, fun hn => absurd trivial hn, ?_⟩
    · intro c' hc' hcol
      rcases mem_append.mp hc' with hc' | hc'
      · exact (h.asked c' hc' hcol).trans hle
      · rw [mem_singleton.mp hc', hop] at hcol
        cases hcol
    · rw [hafter, hfore]
      exact hbounds
    · intro _
      rw [hafter]
      dsimp only
      omega

/-- **A COMMIT** of the next version, to a peon that is counted. -/
theorem PeonOk.commit (h : PeonOk P K counted v out lasts) (hc : counted) (hop : c.op = .commit)
    {b : Blob} (hvals : c.values = [(K + 1, b)]) : PeonOk P (K + 1) counted v (out ++ [c]) lasts := by
  obtain ⟨hlc, hacc⟩ := h.synced hc
  have hwelcome : Welcome (v.final out) c := by
    unfold Welcome
    rw [hop, hvals, hlc]
    exact ⟨by simp, rfl⟩
  have hafter : v.final (out ++ [c]) = { v.final out with lastCommitted := (v.final out).lastCommitted + 1 } := by
    simp [View.final, View.after, hop, hvals]
  have hfore : foretold v (out ++ [c]) = foretold v out := by
    rw [foretold_append]
    simp [foretold, hop]
  refine ⟨(chain_append _ _ v).mpr ⟨h.fits, hwelcome, trivial⟩, ?_, ?_, fun hn => absurd hc hn, fun _ => ?_⟩
  · intro c' hc' hcol
    rcases mem_append.mp hc' with hc' | hc'
    · exact h.asked c' hc' hcol
    · rw [mem_singleton.mp hc', hop] at hcol
      cases hcol
  · rw [hafter, hfore]
    exact h.bounds
  · rw [hafter]
    dsimp only
    omega

end peon

/-! ### The leader -/

/-- All peons in `up`, from the side of a leader with the memory `m`. -/
structure Leads (L : ℕ) (q : Finset ℕ) (up : Set ℕ) (v : ℕ → View) (out : ℕ → List MMonPaxos)
    (lasts : ℕ → List (ℕ × ℕ)) (m : Mon) : Prop where
  peon : ∀ a ∈ q, a ≠ L → a ∈ up →
    PeonOk m.acceptedPn m.lastCommitted (a ∈ m.lastsFrom) (v a) (out a) (lasts a)
  tally : q.card ≠ 1 → m.lastsFrom.Nodup ∧ (∀ a ∈ m.lastsFrom, a ∈ q ∧ a ≠ L) ∧
    m.numLast = m.lastsFrom.length + 1
  done : m.state ≠ .recovering → ∀ a ∈ q, a ≠ L → a ∈ m.lastsFrom

/-- What a piece of the leader's handlers sends. -/
structure Serves (L : ℕ) (q : Finset ℕ) (up : Set ℕ) (v : ℕ → View) (out : ℕ → List MMonPaxos)
    (lasts : ℕ → List (ℕ × ℕ)) (o : Handled) : Prop where
  fits : ∀ a ∈ q, a ≠ L → a ∈ up → Flows (v a) (out a ++ sendsTo a o.effs)
  leads : o.ok = true → Leads L q up v (fun a => out a ++ sendsTo a o.effs) lasts o.st

section leader

variable {n lease L : ℕ} {q : Finset ℕ} {up : Set ℕ} {v : ℕ → View} {out : ℕ → List MMonPaxos}
  {lasts : ℕ → List (ℕ × ℕ)} {m : Mon}

theorem Leads.same (h : Leads L q up v out lasts m) {m' : Mon} (hacc : m'.acceptedPn = m.acceptedPn)
    (hlc : m'.lastCommitted = m.lastCommitted) (hfrom : m'.lastsFrom = m.lastsFrom)
    (hnum : m'.numLast = m.numLast) (hst : m'.state ≠ .recovering → m.state ≠ .recovering) :
    Leads L q up v out lasts m' := by
  refine ⟨?_, ?_, ?_⟩
  · rw [hacc, hlc, hfrom]
    exact h.peon
  · rw [hfrom, hnum]
    exact h.tally
  · rw [hfrom]
    exact fun hs => h.done (hst hs)

variable {o : Handled}

theorem Leads.serves_nothing (h : Leads L q up v out lasts m) (heffs : o.effs = [])
    (ho : Leads L q up v out lasts o.st) : Serves L q up v out lasts o := by
  refine ⟨fun a ha haL hup => ?_, fun _ => ?_⟩
  · rw [heffs, sendsTo_nil, append_nil]
    exact (h.peon a ha haL hup).fits
  · simp only [heffs, sendsTo_nil, append_nil]
    exact ho

theorem serves_check (h : Leads L q up v out lasts m) (m' : Mon) : Serves L q up v out lasts (.check m' false) := by
  refine ⟨fun a ha haL hup => ?_, fun hok => Bool.noConfusion hok⟩
  rw [Out.check_effs, sendsTo_nil, append_nil]
  exact (h.peon a ha haL hup).fits

theorem Serves.andThen {f : Mon → Handled} (h : Serves L q up v out lasts o)
    (hf : Leads L q up v (fun a => out a ++ sendsTo a o.effs) lasts o.st →
      Serves L q up v (fun a => out a ++ sendsTo a o.effs) lasts (f o.st)) :
    Serves L q up v out lasts (o.andThen f) := by
  unfold Out.andThen
  split_ifs with hok
  · have h2 := hf (h.leads hok)
    refine ⟨fun a ha haL hup => ?_, fun hok' => ?_⟩
    · rw [sendsTo_append, ← List.append_assoc]
      exact h2.fits a ha haL hup
    · simp only [sendsTo_append, ← List.append_assoc]
      exact h2.leads hok'
  · exact ⟨h.fits, fun hok' => absurd hok' hok⟩

theorem PeonOk.leases {P K : ℕ} {counted : Prop} {v : View} {out : List MMonPaxos} {lasts : List (ℕ × ℕ)}
    (h : PeonOk P K counted v out lasts) : ∀ {cs : List MMonPaxos},
    (∀ c ∈ cs, c.op = .lease ∨ c.op = .leaseAck) → PeonOk P K counted v (out ++ cs) lasts := by
  intro cs
  induction cs generalizing out with
  | nil =>
    intro _
    rw [append_nil]
    exact h
  | cons c cs ih =>
    intro hcs
    have hop := hcs c mem_cons_self
    have hwelcome : Welcome (v.final out) c := by
      unfold Welcome
      rcases hop with hop | hop <;> rw [hop] <;> trivial
    have h' := h.idle hwelcome (by rcases hop with hop | hop <;> rw [hop] <;> decide)
      (by rcases hop with hop | hop <;> rw [hop] <;> decide)
    rw [append_cons]
    exact ih h' fun c' hc' => hcs c' (mem_cons_of_mem c hc')

theorem serves_quiet (h : Leads L q up v out lasts m) (hq : ∀ e ∈ o.effs, e.Quiet)
    (hsame : SameLead m o.st) (hcalm : Calm m o.st) : Serves L q up v out lasts o := by
  have hp : ∀ a ∈ q, a ≠ L → a ∈ up → PeonOk m.acceptedPn m.lastCommitted (a ∈ m.lastsFrom) (v a)
      (out a ++ sendsTo a o.effs) (lasts a) := by
    intro a ha haL hup
    exact (h.peon a ha haL hup).leases fun c hc => hq _ (mem_sendsTo.mp hc)
  refine ⟨fun a ha haL hup => (hp a ha haL hup).fits, fun _ => ?_⟩
  have h' : Leads L q up v (fun a => out a ++ sendsTo a o.effs) lasts m := ⟨hp, h.tally, h.done⟩
  exact h'.same hcalm.acceptedPn hcalm.lastCommitted hsame.lastsFrom.symm hsame.numLast.symm
    fun hs => by rwa [hsame.state]

variable {a : ℕ}

section

variable (hq : IsQuorum n L q)
include hq

theorem sendsTo_others (ha : a ∈ q) (haL : a ≠ L) (M : MMonPaxos) :
    sendsTo a ((others n L q).map fun p => .send p M) = [M] := by
  rw [sendsTo_bcast (nodup_others n L q), if_pos (mem_others.mpr ⟨?_, ha, haL⟩)]
  exact Finset.mem_range.mp (hq.2.1 ha)

theorem eq_of_card_one (h1 : q.card = 1) (ha : a ∈ q) : a = L := by
  obtain ⟨x, rfl⟩ := Finset.card_eq_one.mp h1
  rw [Finset.mem_singleton.mp ha, Finset.mem_singleton.mp hq.1]

/-- **`begin`**, when every peon is counted. -/
theorem serves_begin (h : Leads L q up v out lasts m) (hm : m.quorum = q) (b : Blob) :
    Serves L q up v out lasts (begin n L b m) := by
  rcases begin_cases n L m b with ⟨m', heq⟩ | ⟨h1, _, m', es, heq, _⟩ | ⟨h1, _, hst, _, _, heq⟩
  · rw [heq]
    exact serves_check h m'
  · rw [hm] at h1
    have hno : ∀ {a}, a ∈ q → a ≠ L → False := fun ha haL => haL (eq_of_card_one hq h1 ha)
    exact ⟨fun a ha haL _ => (hno ha haL).elim, fun _ => ⟨fun a ha haL _ => (hno ha haL).elim,
      fun h1' => absurd h1 h1', fun _ a ha haL => (hno ha haL).elim⟩⟩
  · rw [heq, hm]
    have hall := h.done (by rw [hst]; decide)
    have hsend : ∀ a ∈ q, a ≠ L → sendsTo a (.putBl (m.lastCommitted + 1) b (some m.acceptedPn) ::
        (others n L q).map fun p => .send p (beginMsg b m)) = [beginMsg b m] := by
      intro a ha haL
      exact sendsTo_others hq ha haL _
    have hp : ∀ a ∈ q, a ≠ L → a ∈ up → PeonOk m.acceptedPn m.lastCommitted (a ∈ m.lastsFrom) (v a)
        (out a ++ [beginMsg b m]) (lasts a) := by
      intro a ha haL hup
      have hpa := h.peon a ha haL hup
      obtain ⟨hlc, hacc⟩ := hpa.synced (hall a ha haL)
      exact hpa.idle ⟨hacc.symm, hlc.symm⟩ (fun hop => (by cases hop)) (fun hop => (by cases hop))
    refine ⟨fun a ha haL hup => ?_, fun _ => ⟨fun a ha haL hup => ?_, h.tally, fun _ => hall⟩⟩
    · rw [Out.emit_effs, hsend a ha haL]
      exact (hp a ha haL hup).fits
    · rw [Out.emit_effs, hsend a ha haL]
      exact hp a ha haL hup

/-- **An ACCEPT.** -/
theorem serves_handleAccept (h : Leads L q up v out lasts m) (hm : m.quorum = q)
    (src now : ℕ) (c : MMonPaxos) : Serves L q up v out lasts (handleAccept n L lease src c now m) := by
  rcases handleAccept_cases n L lease m src c now with ⟨heffs, hst⟩ | ⟨_, _, hst, _, heq⟩
  · refine h.serves_nothing heffs ?_
    rw [hst]
    exact h
  rw [heq]
  have hall := h.done (by rw [hst]; decide)
  have hcount : Serves L q up v out lasts (countAccept n L src m) := by
    rcases countAccept_cases n L m src with ⟨_, hc⟩ | ⟨_, hc⟩
    · rw [hc, hm]
      have hsend : ∀ a ∈ q, a ≠ L → sendsTo a (.putLastCommitted (m.lastCommitted + 1) ::
          (others n L q).map fun p => .send p (commitMsg m)) = [commitMsg m] := by
        intro a ha haL
        exact sendsTo_others hq ha haL _
      have hp : ∀ a ∈ q, a ≠ L → a ∈ up → PeonOk m.acceptedPn (m.lastCommitted + 1) (a ∈ m.lastsFrom)
          (v a) (out a ++ [commitMsg m]) (lasts a) := by
        intro a ha haL hup
        exact (h.peon a ha haL hup).commit (hall a ha haL) rfl rfl
      refine ⟨fun a ha haL hup => ?_, fun _ => ⟨fun a ha haL hup => ?_, h.tally, fun _ => hall⟩⟩
      · rw [Out.emit_effs, hsend a ha haL]
        exact (hp a ha haL hup).fits
      · rw [Out.emit_effs, hsend a ha haL]
        exact hp a ha haL hup
    · rw [hc]
      exact h.serves_nothing rfl (h.same rfl rfl rfl rfl id)
  have hkept : ∀ a ∈ q, a ≠ L → a ∈ (countAccept n L src m).st.lastsFrom := by
    rcases countAccept_cases n L m src with ⟨_, hc⟩ | ⟨_, hc⟩ <;> rw [hc] <;> exact hall
  refine hcount.andThen fun h' => ?_
  rcases finishAccepts_cases n L lease (countAccept n L src m).st now with ⟨_, hf⟩ | ⟨_, hquiet, hsame, hcalm⟩
  · rw [hf]
    exact h'.serves_nothing rfl h'
  · have hact : Leads L q up v (fun a => out a ++ sendsTo a (countAccept n L src m).effs) lasts
        { (countAccept n L src m).st with state := .active } := ⟨h'.peon, h'.tally, fun _ => hkept⟩
    exact serves_quiet hact hquiet hsame hcalm

/-- When `num_last` has reached the size of the quorum, every peon is counted. -/
theorem Leads.all_counted (h : Leads L q up v out lasts m) (h1 : q.card ≠ 1)
    (hnum : m.numLast = q.card) : ∀ a ∈ q, a ≠ L → a ∈ m.lastsFrom := by
  obtain ⟨hnd, hsub, hlen⟩ := h.tally h1
  have hss : m.lastsFrom.toFinset ⊆ q.erase L := by
    intro a ha
    obtain ⟨haq, haL⟩ := hsub a (List.mem_toFinset.mp ha)
    exact Finset.mem_erase.mpr ⟨haL, haq⟩
  have hcard : (q.erase L).card ≤ m.lastsFrom.toFinset.card := by
    rw [toFinset_card_of_nodup hnd, Finset.card_erase_of_mem hq.1]
    omega
  have heq := Finset.eq_of_subset_of_card_le hss hcard
  intro a ha haL
  rw [← List.mem_toFinset, heq]
  exact Finset.mem_erase.mpr ⟨haL, ha⟩

theorem serves_finishLasts (h1 : q.card ≠ 1) (h : Leads L q up v out lasts m)
    (hm : m.quorum = q) (now : ℕ) : Serves L q up v out lasts (finishLasts n L lease now m) := by
  have hact : m.numLast = m.quorum.card → Leads L q up v out lasts { m with state := .active } := by
    intro hnum
    rw [hm] at hnum
    have hall := h.all_counted hq h1 hnum
    exact ⟨h.peon, h.tally, fun _ => hall⟩
  rcases finishLasts_cases n L lease m now with ⟨_, heq⟩ | ⟨hnum, _, _, heq⟩ | ⟨hnum, _, hquiet, hsame, hcalm⟩
  · rw [heq]
    exact h.serves_nothing rfl h
  · rw [heq]
    exact serves_begin hq (hact hnum) hm _
  · exact serves_quiet (hact hnum) hquiet hsame hcalm

end

/-- What the leader tells a peon whose LAST it handles. -/
def told (st : Store) (src : ℕ) (c : MMonPaxos) (m : Mon) : List MMonPaxos :=
  sendsTo src (shared st src c m ++ learned c m)

theorem sendsTo_learned (a : ℕ) (c : MMonPaxos) (m : Mon) : sendsTo a (learned c m) = [] := by
  refine eq_nil_iff_forall_not_mem.mpr fun M hM => ?_
  have hmem := mem_sendsTo.mp hM
  unfold learned at hmem
  split_ifs at hmem
  · simp at hmem
  · cases hmem

variable {src : ℕ}

theorem sendsTo_shared_ne (st : Store) (h : a ≠ src) (c : MMonPaxos) (m : Mon) :
    sendsTo a (shared st src c m ++ learned c m) = [] := by
  rw [sendsTo_append, sendsTo_learned, append_nil]
  unfold shared
  split_ifs
  · rw [sendsTo_send, if_neg (Ne.symm h)]
    rfl
  · rfl

theorem told_cases (st : Store) (src : ℕ) (c : MMonPaxos) (m : Mon) :
    (m.lastCommitted ≤ c.lastCommitted ∧ max m.lastCommitted c.lastCommitted = c.lastCommitted ∧
      told st src c m = []) ∨
    (c.lastCommitted < m.lastCommitted ∧ max m.lastCommitted c.lastCommitted = m.lastCommitted ∧
      ∃ M, told st src c m = [M] ∧ M.op = .commit ∧
        M.values.map Prod.fst = List.range' (c.lastCommitted + 1) (m.lastCommitted - c.lastCommitted) ∧
        M.values.length = m.lastCommitted - c.lastCommitted) := by
  unfold told
  rw [sendsTo_append, sendsTo_learned, append_nil]
  unfold shared
  split_ifs with h
  · refine .inr ⟨h, max_eq_left h.le, _, by rw [sendsTo_send, if_pos rfl]; rfl, rfl, ?_, ?_⟩
    · simp [List.map_map, Function.comp_def]
    · simp
  · exact .inl ⟨not_lt.mp h, max_eq_right (not_lt.mp h), rfl⟩

/-- **A LAST** that answers the current collect or makes the leader collect
again, from a peon that is not counted. -/
theorem leads_last (hq : IsQuorum n L q) (h1 : q.card ≠ 1) (h : Leads L q up v out lasts m) (hm : m.quorum = q)
    (hl : m.role = .leader) (hsrc : src ∈ q ∧ src ≠ L) (st : Store) (c : MMonPaxos) (now : ℕ)
    {lasts' : ℕ → List (ℕ × ℕ)} (hlasts : lasts src = (c.pn, c.lastCommitted) :: lasts' src)
    (hother : ∀ a, a ≠ src → lasts' a = lasts a) (hpn : m.acceptedPn ≤ c.pn) (hnew : src ∉ m.lastsFrom)
    (hlate : m.lastCommitted < c.lastCommitted → m.acceptedPn < c.pn ∨ m.numLast = 1) :
    Serves L q up v out lasts' (handleLast n L lease st src c now m) := by
  have htold : src ∈ up → PeonOk c.pn (max m.lastCommitted c.lastCommitted) True (v src)
      (out src ++ told st src c m) (lasts' src) := by
    intro hup
    have hp := h.peon src hsrc.1 hsrc.2 hup
    rw [hlasts, eq_false hnew] at hp
    exact hp.told hpn (told_cases st src c m)
  rcases handleLast_cases n L lease st m src c now hl with ⟨hlt, heq⟩ | ⟨hle, heq⟩
  · -- the leader collects again: nobody is counted
    obtain ⟨m', hc, hcol⟩ := collect_spec n L (st.performAll (learned c m)) (withLearned c m) c.pn hl
    set p := pickedPn L c.pn (withLearned c m) with hp
    have hlt' : c.pn < p := (lt_pickedPn L c.pn (withLearned c m)).2.2
    rw [heq, Out.emit_andThen, hcol]
    have hsend : ∀ a ∈ q, a ≠ L → sendsTo a (shared st src c m ++ learned c m ++ .putLastPn p ::
        (others n L q).map fun d => .send d (collectMsg (withLearned c m) p)) =
        sendsTo a (shared st src c m ++ learned c m) ++ [collectMsg (withLearned c m) p] := by
      intro a ha haL
      rw [sendsTo_append, sendsTo_putLastPn, sendsTo_others hq ha haL]
    have hpeon : ∀ a ∈ q, a ≠ L → a ∈ up → PeonOk m'.acceptedPn m'.lastCommitted (a ∈ m'.lastsFrom) (v a)
        (out a ++ sendsTo a (shared st src c m ++ learned c m ++ .putLastPn p ::
          (others n L q).map fun d => .send d (collectMsg (withLearned c m) p))) (lasts' a) := by
      intro a ha haL hup
      rw [hsend a ha haL, ← List.append_assoc, hc.acceptedPn, hc.lastsFrom,
        eq_false (not_mem_nil (a := a))]
      by_cases has : a = src
      · subst has
        exact (htold hup).collect (c := collectMsg (withLearned c m) p) rfl hlt' _
      · rw [sendsTo_shared_ne st has, append_nil, hother a has]
        exact (h.peon a ha haL hup).collect (c := collectMsg (withLearned c m) p) rfl (hlt.trans hlt') _
    have hq' : (withLearned c m).quorum = q := hm
    simp only [Out.emit_effs, Out.emit_st, Out.emit_ok, hq']
    refine ⟨fun a ha haL hup => (hpeon a ha haL hup).fits, fun _ => ⟨hpeon, fun _ => ?_, fun hs => ?_⟩⟩
    · rw [hc.lastsFrom, hc.numLast]
      exact ⟨nodup_nil, nofun, rfl⟩
    · exact absurd hc.state hs
  · -- it is counted
    have hpn' : c.pn = m.acceptedPn := le_antisymm hle hpn
    rw [heq]
    obtain ⟨hq', hacc, hlc, hfrom, hnum, hst⟩ : (countLast src c (withLearned c m)).quorum = m.quorum ∧
        (countLast src c (withLearned c m)).acceptedPn = m.acceptedPn ∧
        (countLast src c (withLearned c m)).lastCommitted = max m.lastCommitted c.lastCommitted ∧
        (countLast src c (withLearned c m)).lastsFrom = src :: m.lastsFrom ∧
        (countLast src c (withLearned c m)).numLast = m.numLast + 1 ∧
        (countLast src c (withLearned c m)).state = m.state := by
      unfold countLast
      dsimp only
      split_ifs <;> exact ⟨rfl, rfl, rfl, rfl, rfl, rfl⟩
    obtain ⟨hnd, hsub, hlen⟩ := h.tally h1
    have hpeon : ∀ a ∈ q, a ≠ L → a ∈ up → PeonOk m.acceptedPn (max m.lastCommitted c.lastCommitted)
        (a ∈ src :: m.lastsFrom) (v a) (out a ++ sendsTo a (shared st src c m ++ learned c m)) (lasts' a) := by
      intro a ha haL hup
      by_cases has : a = src
      · subst has
        rw [eq_true (mem_cons_self (a := a)), ← hpn']
        exact htold hup
      · rw [sendsTo_shared_ne st has, append_nil, hother a has, mem_cons, or_iff_right has]
        have hpa := h.peon a ha haL hup
        refine ⟨hpa.fits, hpa.asked, hpa.bounds, hpa.pending, fun hcount => ?_⟩
        -- the leader has learned nothing new if another peon is counted
        have hsame : max m.lastCommitted c.lastCommitted = m.lastCommitted := by
          refine max_eq_left (not_lt.mp fun hgt => ?_)
          have hpos := length_pos_of_mem hcount
          rcases hlate hgt with hlt | hnum
          · omega
          · omega
        rw [hsame]
        exact hpa.synced hcount
    have hcount : Serves L q up v out lasts' (.emit (countLast src c (withLearned c m))
        (shared st src c m ++ learned c m)) := by
      refine ⟨fun a ha haL hup => (hpeon a ha haL hup).fits, fun _ => ⟨?_, fun _ => ?_, fun hs => ?_⟩⟩
      · dsimp only [Out.emit_st]
        rw [hacc, hlc, hfrom]
        exact hpeon
      · dsimp only [Out.emit_st]
        rw [hfrom, hnum, hlen, length_cons]
        refine ⟨nodup_cons.mpr ⟨hnew, hnd⟩, fun a ha => ?_, rfl⟩
        rcases mem_cons.mp ha with rfl | ha
        · exact hsrc
        · exact hsub a ha
      · dsimp only [Out.emit_st] at hs ⊢
        rw [hst] at hs
        rw [hfrom]
        exact fun a ha haL => mem_cons_of_mem src (h.done hs a ha haL)
    exact hcount.andThen fun h' => serves_finishLasts hq h1 h' (hq'.trans hm) now

end leader

/-! ### The peons' handlers -/

def Mon.view (m : Mon) : View := ⟨m.lastCommitted, m.acceptedPn⟩

/-- A peon does what its view foretells, unless it fails. -/
def Follows (L : ℕ) (m : Mon) (c : MMonPaxos) (o : Handled) : Prop :=
  o.ok = true → o.st.view = m.view.after c ∧ answered (sendsTo L o.effs) =
    if c.op = .collect then [(max m.acceptedPn c.pn, m.lastCommitted)] else []

section handlers

variable {L : ℕ} {m : Mon} {c : MMonPaxos}

theorem follows_handleCollect (st : Store) (hp : m.role = .peon) (hop : c.op = .collect) :
    Follows L m c (handleCollect st L c m) := by
  intro hok
  unfold View.after
  rw [hop, if_pos rfl]
  rcases handleCollect_cases st m L c hp with h | ⟨hlt, h⟩ | ⟨hle, h⟩
  · rw [h] at hok
    cases hok
  · rw [h]
    have hmax : max m.acceptedPn c.pn = c.pn := max_eq_right hlt.le
    refine ⟨by simp [Mon.view, hmax], ?_⟩
    rw [Out.emit_effs, sendsTo_putAcceptedPn, sendsTo_send, if_pos rfl, hmax]
    rfl
  · rw [h]
    have hmax : max m.acceptedPn c.pn = m.acceptedPn := max_eq_left hle
    refine ⟨by simp [Mon.view, hmax], ?_⟩
    rw [Out.emit_effs, sendsTo_send, if_pos rfl, hmax]
    rfl

theorem follows_handleBegin (hop : c.op = .begin) : Follows L m c (handleBegin L c m) := by
  intro _
  unfold View.after
  rw [hop]
  rcases handleBegin_cases m L c with ⟨heffs, hst⟩ | ⟨_, _, h⟩
  · rw [heffs, hst]
    exact ⟨rfl, rfl⟩
  · rw [h]
    refine ⟨rfl, ?_⟩
    rw [Out.emit_effs, sendsTo_putBl, sendsTo_send, if_pos rfl]
    rfl

theorem follows_handleLease (now : ℕ) (hop : c.op = .lease) : Follows L m c (handleLease L c now m) := by
  intro _
  unfold View.after
  rw [hop]
  obtain ⟨hq, hcalm⟩ := quiet_handleLease L now c m
  refine ⟨by simp [Mon.view, hcalm.lastCommitted, hcalm.acceptedPn], ?_⟩
  have hnone : (sendsTo L (handleLease L c now m).effs).filter (fun c => c.op = .last) = [] := by
    refine filter_eq_nil_iff.mpr fun M hM => ?_
    rcases hq _ (mem_sendsTo.mp hM) with h | h <;> simp [h]
  rw [answered, hnone]
  rfl

theorem storeCommitted_next : ∀ (vs : List (ℕ × Blob)) (m : Mon),
    vs.map Prod.fst = List.range' (m.lastCommitted + 1) vs.length →
    (storeCommitted vs m).ok = true ∧
      (storeCommitted vs m).st = { m with lastCommitted := m.lastCommitted + vs.length }
  | [], m, _ => ⟨rfl, rfl⟩
  | (v, b) :: vs, m, h => by
    rw [length_cons, range'_succ, map_cons, List.cons.injEq] at h
    obtain ⟨hv, hvs⟩ := h
    have hv : v = m.lastCommitted + 1 := hv
    subst hv
    obtain ⟨hok, hst⟩ := storeCommitted_next vs { m with lastCommitted := m.lastCommitted + 1 } hvs
    unfold storeCommitted
    rw [Out.check_andThen, if_pos (by simp), Out.emit_andThen]
    refine ⟨hok, hst.trans ?_⟩
    rw [length_cons]
    congr 1
    show m.lastCommitted + 1 + vs.length = m.lastCommitted + (vs.length + 1)
    omega

theorem handleCommit_next (hp : m.role = .peon) (hop : c.op = .commit) (hw : Welcome m.view c) :
    (handleCommit c m).ok = true ∧
      (handleCommit c m).st = { m with lastCommitted := m.lastCommitted + c.values.length } := by
  unfold Welcome at hw
  rw [hop] at hw
  obtain ⟨hok, hst⟩ := storeCommitted_next c.values m hw.2
  unfold handleCommit
  rw [Out.check_andThen, if_pos (by simpa using hp), Out.andThen, if_pos hok]
  exact ⟨rfl, hst⟩

theorem follows_handleCommit (hp : m.role = .peon) (hop : c.op = .commit) (hw : Welcome m.view c) :
    Follows L m c (handleCommit c m) := by
  intro _
  unfold View.after
  rw [hop, (handleCommit_next hp hop hw).2]
  refine ⟨rfl, ?_⟩
  have hnone : sendsTo L (handleCommit c m).effs = [] := by
    obtain ⟨ws, _, _, _, heffs⟩ := handleCommit_spec m c hp
    refine eq_nil_iff_forall_not_mem.mpr fun M hM => ?_
    have hmem := mem_sendsTo.mp hM
    rcases heffs with ⟨h, _⟩ | h <;> rw [h] at hmem <;> simp at hmem
  rw [hnone]
  rfl

/-- **The assertions** of `handle_begin` and `handle_commit`. -/
theorem handleBegin_welcome (hop : c.op = .begin) (hw : Welcome m.view c) : (handleBegin L c m).ok = true := by
  unfold Welcome at hw
  rw [hop] at hw
  obtain ⟨hpn, hlc⟩ := hw
  have hpn : c.pn = m.acceptedPn := hpn
  have hlc : c.lastCommitted = m.lastCommitted := hlc
  unfold handleBegin
  rw [if_neg (by omega), Out.check_andThen, if_pos (by simpa using hpn), Out.check_andThen,
    if_pos (by simpa using hlc)]
  rfl

end handlers

/-! ### Runs -/

section runs

variable {n lease L e i : ℕ} {q : Finset ℕ} {s s' s₁ : Cluster} {ev : Event} {o : Handled}

/-- The condition on the LASTs that the leader handles: none is below its number
or from a peon already counted, and one that brings newer versions comes first
or makes the leader collect again. -/
def OrderlyLast (m : Mon) (src : ℕ) (c : MMonPaxos) : Prop :=
  m.acceptedPn ≤ c.pn ∧ src ∉ m.lastsFrom ∧
    (m.lastCommitted < c.lastCommitted → m.acceptedPn < c.pn ∨ m.numLast = 1)

/-- The actions of an epoch whose LASTs are handled in order. -/
def Orderly (n L e : ℕ) (q : Finset ℕ) (s : Cluster) (a : Act) : Prop :=
  InEpoch n L q a ∧ match a with
    | .run (.deliver src dst _) => ∀ c ∈ (s.net src dst).head?, c.epoch = e → c.op = .last →
        OrderlyLast (s.node dst).mon src c
    | _ => True

def Cluster.view (s : Cluster) (a : ℕ) : View := (s.node a).mon.view

/-- The invariant. -/
structure CaughtUp (L e : ℕ) (q : Finset ℕ) (s : Cluster) : Prop where
  fits : ∀ a ∈ q, a ≠ L → (s.node a).up = true → Flows (s.view a) (current e (s.net L a))
  leads : (s.node L).up = true → Leads L q {a | (s.node a).up = true} s.view
    (fun a => current e (s.net L a)) (fun a => answered (current e (s.net a L))) (s.node L).mon

theorem CaughtUp.same (h : CaughtUp L e q s) (hnode : s'.node = s.node)
    (hnet : ∀ a b, current e (s'.net a b) = current e (s.net a b)) : CaughtUp L e q s' := by
  refine ⟨?_, ?_⟩
  · simp only [view, hnode, hnet]
    exact h.fits
  · have hview : s'.view = s.view := by
      funext a
      rw [view, hnode, view]
    simp only [hview, hnode, hnet]
    exact h.leads

variable {c : MMonPaxos} {ms : List MMonPaxos}

/-- **A peon's turn.** -/
theorem caughtUp_peon (ho : InOffice n L e q s) (h : CaughtUp L e q s) {a now : ℕ}
    (ht : Turn n lease L e q s (.deliver L a now) a (s.received L a) o)
    (ha : a ∈ q) (haL : a ≠ L) (hup : (s.node a).up = true) (hnet : s.net L a = c :: ms) (hc : c.epoch = e)
    (hf : Welcome (s.view a) c → Follows L (s.node a).mon c o) :
    CaughtUp L e q (((s.received L a).performAll a o.effs).become a o.st o.ok) := by
  obtain ⟨hother, hself⟩ := ht.nodes
  obtain ⟨hout, hback, hbs⟩ := ht.peon_net ho haL hnet
  set s' := ((s.received L a).performAll a o.effs).become a o.st o.ok
  have hcons : current e (s.net L a) = c :: current e ms := by rw [hnet, current_cons hc]
  have hfits := h.fits a ha haL hup
  rw [hcons] at hfits
  have hfollow := hf hfits.1
  refine ⟨fun b hb hbL hbup => ?_, fun hLup => ⟨fun b hb hbL hbup => ?_, ?_, ?_⟩⟩
  · by_cases hba : b = a
    · subst hba
      rw [hself.1] at hbup
      rw [hout, view, hself.2, (hfollow hbup).1]
      exact hfits.2
    · rw [hother b hba] at hbup
      rw [(hbs b hba).1, view, hother b hba]
      exact h.fits b hb hbL hbup
  · rw [hother L (Ne.symm haL)] at hLup ⊢
    have hleads := h.leads hLup
    by_cases hba : b = a
    · subst hba
      have hbup : (s'.node b).up = true := hbup
      rw [hself.1] at hbup
      obtain ⟨hview, hans⟩ := hfollow hbup
      have hp := hleads.peon b hb hbL hup
      rw [hcons] at hp
      have hlasts : answered (current e (s'.net b L)) = answered (current e (s.net b L)) ++
          if c.op = .collect then [(max (s.view b).acceptedPn c.pn, (s.view b).lastCommitted)] else [] := by
        rw [hback, answered, filter_append, map_append]
        exact congrArg _ hans
      rw [hout, hlasts, view, hself.2, hview]
      exact hp.handled
    · have hbup : (s'.node b).up = true := hbup
      rw [hother b hba] at hbup
      rw [(hbs b hba).1, (hbs b hba).2, view, hother b hba]
      exact hleads.peon b hb hbL hbup
  · rw [hother L (Ne.symm haL)] at hLup ⊢
    exact (h.leads hLup).tally
  · rw [hother L (Ne.symm haL)] at hLup ⊢
    exact (h.leads hLup).done

/-- **The leader's turn.** -/
theorem caughtUp_leader (ho : InOffice n L e q s) (ht : Turn n lease L e q s ev L s₁ o)
    {lasts : ℕ → List (ℕ × ℕ)}
    (hserves : Serves L q {a | (s.node a).up = true} s.view (fun a => current e (s.net L a)) lasts o)
    (hout : ∀ a, a ≠ L → current e (s₁.net L a) = current e (s.net L a))
    (hlasts : ∀ a, a ≠ L → answered (current e (s₁.net a L)) = lasts a) :
    CaughtUp L e q ((s₁.performAll L o.effs).become L o.st o.ok) := by
  obtain ⟨hother, hself⟩ := ht.nodes
  have hnet : ∀ a, a ≠ L → _ := fun a ha => ht.leader_net ho ha
  set s' := (s₁.performAll L o.effs).become L o.st o.ok
  refine ⟨fun a ha haL hup => ?_, fun hup => ⟨fun a ha haL haup => ?_, ?_, ?_⟩⟩
  · rw [hother a haL] at hup
    rw [(hnet a haL).1, hout a haL, view, hother a haL]
    exact hserves.fits a ha haL hup
  · have haup : (s'.node a).up = true := haup
    rw [hother a haL] at haup
    rw [hself.1] at hup
    rw [hself.2, (hnet a haL).1, hout a haL, (hnet a haL).2, hlasts a haL, view, hother a haL]
    exact (hserves.leads hup).peon a ha haL haup
  · rw [hself.1] at hup
    rw [hself.2]
    exact (hserves.leads hup).tally
  · rw [hself.1] at hup
    rw [hself.2]
    exact (hserves.leads hup).done

theorem answered_cons (hop : c.op = .last) (ms : List MMonPaxos) :
    answered (c :: ms) = (c.pn, c.lastCommitted) :: answered ms := by
  simp [answered, hop]

theorem answered_cons_ne (hop : c.op ≠ .last) (ms : List MMonPaxos) :
    answered (c :: ms) = answered ms := by
  simp [answered, hop]

theorem card_ne_one (hq : IsQuorum n L q) {a : ℕ} (ha : a ∈ q) (haL : a ≠ L) : q.card ≠ 1 :=
  fun h1 => haL (eq_of_card_one hq h1 ha)

theorem Leads.replied {up : Set ℕ} {v : ℕ → View} {out : ℕ → List MMonPaxos} {m : Mon} {src : ℕ}
        (h : Leads L q up v out (fun a => answered (current e (s.net a L))) m) (hnet : s.net src L = c :: ms)
    (hc : c.epoch = e) (hop : c.op ≠ .last) :
    Leads L q up v out (fun a => answered (current e ((s.received src L).net a L))) m := by
  have hsame : (fun a => answered (current e ((s.received src L).net a L))) =
      fun a => answered (current e (s.net a L)) := by
    funext a
    by_cases ha : a = src
    · subst ha
      rw [current_received_self hnet, hnet, current_cons hc, answered_cons_ne hop]
    · rw [current_received_ne (fun h => ha h.1)]
  rw [hsame]
  exact h

/-- **Every turn keeps it.** -/
theorem caughtUp_turn (ho : InOffice n L e q s) (h : CaughtUp L e q s) (hup : (s.node i).up = true)
    (ht : Turn n lease L e q s ev i s₁ o) (hord : Orderly n L e q s (.run ev)) :
    CaughtUp L e q ((s₁.performAll i o.effs).become i o.st o.ok) := by
  have hq := ho.quorum
  obtain ⟨hoffice, hquorum⟩ := ho.leader
  have hout : ∀ a b, b ≠ L → current e ((s.received a L).net L b) = current e (s.net L b) :=
    fun a b hb => current_received_ne fun h => hb h.2
  have ht' := ht
  cases ht with
  | old a b now c ms hb hnet hc =>
    obtain ⟨hnode, hcur⟩ := received_old hup hnet hc
    exact h.same hnode hcur
  | collect a now c ms ha haL hnet hc hop =>
    exact caughtUp_peon ho h ht' ha haL hup hnet hc
      fun _ => follows_handleCollect _ (ho.peon i ha haL).role hop
  | begin a now c ms ha haL hnet hc hop =>
    exact caughtUp_peon ho h ht' ha haL hup hnet hc fun _ => follows_handleBegin hop
  | commit a now c ms ha haL hnet hc hop =>
    exact caughtUp_peon ho h ht' ha haL hup hnet hc
      fun hw => follows_handleCommit (ho.peon i ha haL).role hop hw
  | lease a now c ms ha haL hnet hc hop =>
    exact caughtUp_peon ho h ht' ha haL hup hnet hc fun _ => follows_handleLease now hop
  | last a now c ms ha haL hnet hc hop =>
    obtain ⟨hpn, hnew, hlate⟩ := hord.2 c (by rw [hnet]; rfl) hc hop
    refine caughtUp_leader ho ht' ?_ (hout a) fun b _ => rfl
    refine leads_last hq (card_ne_one hq ha haL) (h.leads hup) hquorum hoffice.role ⟨ha, haL⟩ _ c now ?_ ?_
      hpn hnew hlate
    · rw [current_received_self hnet, hnet, current_cons hc, answered_cons hop]
    · intro b hb
      rw [current_received_ne (fun h => hb h.1)]
  | accept a now c ms ha haL hnet hc hop =>
    have hleads := (h.leads hup).replied hnet hc (by rw [hop]; decide)
    exact caughtUp_leader ho ht' (serves_handleAccept hq hleads hquorum a now c) (hout a) fun b _ => rfl
  | leaseAck a now c ms ha haL hnet hc hop =>
    have hleads := (h.leads hup).replied hnet hc (by rw [hop]; decide)
    obtain ⟨hquiet, hcalm⟩ := quiet_handleLeaseAck a (s.node L).mon
    have hrole : (handleLeaseAck a (s.node L).mon).st.role = .leader :=
      ((ht'.official ho).1 rfl).role.trans hoffice.role
    exact caughtUp_leader ho ht' (serves_quiet hleads hquiet (hcalm.lead hrole) hcalm) (hout a) fun b _ => rfl
  | propose v hact =>
    have hleads : Leads L q _ _ _ _ (cancelEvents (s.node L).mon) := (h.leads hup).same rfl rfl rfl rfl id
    exact caughtUp_leader ho ht' (serves_begin hq hleads hquorum v) (fun _ _ => rfl) fun _ _ => rfl
  | busy v =>
    exact caughtUp_leader ho ht' (serves_check (h.leads hup) _) (fun _ _ => rfl) fun _ _ => rfl
  | renew now =>
    have hleads : Leads L q _ _ _ _ { (s.node L).mon with leaseRenewEvent := false } :=
      (h.leads hup).same rfl rfl rfl rfl id
    obtain ⟨hquiet, hsame, hcalm⟩ :=
      @quiet_extendLease n lease L now { (s.node L).mon with leaseRenewEvent := false }
    exact caughtUp_leader ho ht' (serves_quiet hleads hquiet hsame hcalm) (fun _ _ => rfl) fun _ _ => rfl

/-- The winner's first collect. -/
theorem caughtUp_won (h : Gathered n L e q s) (hs : step n lease s (.run (.win L e q)) = some s') :
    CaughtUp L e q s' := by
  have hq := h.quorum
  have hLn : L < n := Finset.mem_range.mp (hq.2.1 hq.1)
  have hold : ∀ a ∈ q, current e (s.net L a) = [] ∧ current e (s.net a L) = [] := by
    intro a ha
    have han : a < n := Finset.mem_range.mp (hq.2.1 ha)
    exact ⟨current_old (h.old L hLn a han), current_old (h.old a han L hLn)⟩
  obtain ⟨_, ⟨h1, rfl⟩ | ⟨h1, rfl⟩⟩ := won_cases h hs
  · have hno : ∀ {a}, a ∈ q → a ≠ L → False := fun ha haL => haL (eq_of_card_one hq h1 ha)
    exact ⟨fun a ha haL _ => (hno ha haL).elim, fun _ => ⟨fun a ha haL _ => (hno ha haL).elim,
      fun h1' => absurd h1 h1', fun _ a ha haL => (hno ha haL).elim⟩⟩
  · obtain ⟨m', hc, heq⟩ := collect_spec n L (s.node L).store (elected L e q (s.node L).mon) 0 rfl
    set m := elected L e q (s.node L).mon with hm
    set p := pickedPn L 0 m with hp
    rw [heq]
    set s' := (s.performAll L (Out.emit m' (.putLastPn p ::
      (others n L m.quorum).map fun d => .send d (collectMsg m p)) : Handled).effs).become L
      (Out.emit m' (.putLastPn p :: (others n L m.quorum).map fun d => .send d (collectMsg m p)) : Handled).st
      true with hs'
    have hnet : ∀ a ∈ q, a ≠ L → current e (s'.net L a) = [collectMsg m p] := by
      intro a ha haL
      rw [hs', become_net, performAll_net, if_pos rfl, current_append, (hold a ha).1,
        Out.emit_effs, sendsTo_putLastPn]
      have hq' : m.quorum = q := rfl
      rw [hq', sendsTo_others hq ha haL, nil_append]
      exact current_cons rfl []
    have hback : ∀ a ∈ q, a ≠ L → current e (s'.net a L) = [] := by
      intro a ha haL
      rw [hs', become_net, performAll_net, if_neg haL]
      exact (hold a ha).2
    have hmon : (s'.node L).mon = m' := by
      rw [hs', become_node]
      rfl
    have hpeon : ∀ a ∈ q, a ≠ L → PeonOk p m'.lastCommitted False (s'.view a) [collectMsg m p] [] := by
      intro a _ _
      have hbase : PeonOk m.acceptedPn 0 False (s'.view a) [] [] := by
        refine ⟨trivial, ?_, ?_, ?_, fun hf => hf.elim⟩ <;> simp [foretold]
      exact hbase.collect (c := collectMsg m p) rfl (lt_pickedPn L 0 m).2.1 _
    refine ⟨fun a ha haL _ => ?_, fun _ => ⟨fun a ha haL _ => ?_, fun _ => ?_, fun hst => ?_⟩⟩
    · rw [hnet a ha haL]
      exact (hpeon a ha haL).fits
    · rw [hmon, hc.acceptedPn, hc.lastsFrom, hnet a ha haL, hback a ha haL,
        eq_false (not_mem_nil (a := a))]
      exact hpeon a ha haL
    · rw [hmon, hc.lastsFrom, hc.numLast]
      exact ⟨nodup_nil, nofun, rfl⟩
    · rw [hmon] at hst
      exact absurd hc.state hst

/-- **Every step keeps it.** -/
theorem caughtUp_step {a : Act} (h : InOffice n L e q s ∧ CaughtUp L e q s) (hord : Orderly n L e q s a)
    (hs : step n lease s a = some s') : InOffice n L e q s' ∧ CaughtUp L e q s' := by
  obtain ⟨ev, i, s₁, o, rfl, hup, ht, rfl⟩ := turn_of_step h.1 hord.1 hs
  exact ⟨inOffice_turn h.1 ht, caughtUp_turn h.1 h.2 hup ht hord⟩

/-- **No peon is left behind.** In every run of an epoch whose LASTs are handled
in order, when a message of the epoch reaches a running peon of the quorum, a
BEGIN finds it at the leader's version, a COMMIT carries the version after its
last one first, and neither fails an assertion. -/
theorem none_left_behind (n lease : ℕ) {L e : ℕ} {q : Finset ℕ} {s₀ s₁ s : Cluster}
    (h₀ : Gathered n L e q s₀) (hwin : step n lease s₀ (.run (.win L e q)) = some s₁)
    (h : Run.Reach (step n lease) (Orderly n L e q) s₁ s) {a : ℕ} (ha : a ∈ q) (haL : a ≠ L)
    (hup : (s.node a).up = true) {c : MMonPaxos} {ms : List MMonPaxos} (hnet : s.net L a = c :: ms)
    (hc : c.epoch = e) :
    (c.op = .begin → c.lastCommitted = (s.node a).mon.lastCommitted ∧
      (handleBegin L c (s.node a).mon).ok = true) ∧
    (c.op = .commit → c.values.head?.map Prod.fst = some ((s.node a).mon.lastCommitted + 1) ∧
      (handleCommit c (s.node a).mon).ok = true) := by
  obtain ⟨ho, hcaught⟩ := h.inv (fun s => InOffice n L e q s ∧ CaughtUp L e q s)
    ⟨inOffice_won h₀ hwin, caughtUp_won h₀ hwin⟩ fun _ _ _ hP hord hs => caughtUp_step hP hord hs
  have hfits := hcaught.fits a ha haL hup
  rw [hnet, current_cons hc] at hfits
  have hw : Welcome (s.node a).mon.view c := hfits.1
  refine ⟨fun hop => ⟨?_, handleBegin_welcome hop hw⟩,
    fun hop => ⟨?_, (handleCommit_next (ho.peon a ha haL).role hop hw).1⟩⟩
  · unfold Welcome at hw
    rw [hop] at hw
    exact hw.2
  · unfold Welcome at hw
    rw [hop] at hw
    obtain ⟨hne, hvals⟩ := hw
    obtain ⟨x, vs, hcons⟩ := exists_cons_of_ne_nil hne
    rw [hcons, length_cons, range'_succ, map_cons, List.cons.injEq] at hvals
    rw [hcons]
    exact congrArg some hvals.1

instance (m : Mon) (src : ℕ) (c : MMonPaxos) : Decidable (OrderlyLast m src c) :=
  inferInstanceAs (Decidable (_ ∧ _ ∧ _))

instance (n L e : ℕ) (q : Finset ℕ) (s : Cluster) : ∀ a : Act, Decidable (Orderly n L e q s a)
  | .run (.deliver _ _ _) => inferInstanceAs (Decidable (_ ∧ ∀ _ ∈ _, _ → _ → _))
  | .run (.win _ _ _) | .run (.lose _ _ _) | .run (.propose _ _) | .run (.callElection _)
  | .run (.leaseRenew _ _) | .cut _ _ | .restart _ | .drop _ _ _ => inferInstanceAs (Decidable (_ ∧ True))

/-- Monitors 0 and 1 have committed version 1, monitor 2 has committed version 2
with 1, which has not heard of the COMMIT; then 1 and 2 lose to 0. -/
def oneVersionAhead : List Act :=
  [.restart 0, .restart 1, .restart 2,
    .run (.win 0 2 {0, 1, 2}), .run (.lose 1 2 0), .run (.lose 2 2 0),
    .run (.deliver 0 1 0), .run (.deliver 0 2 0), .run (.deliver 1 0 0), .run (.deliver 2 0 0),
    .run (.propose 0 [1]), .run (.deliver 0 1 0), .run (.deliver 0 2 0),
    .run (.deliver 0 1 0), .run (.deliver 0 2 0),
    .run (.deliver 1 0 0), .run (.deliver 1 0 0), .run (.deliver 2 0 0), .run (.deliver 2 0 0),
    .run (.deliver 0 1 0), .run (.deliver 0 2 0),
    .run (.win 2 4 {1, 2}), .run (.lose 1 4 2), .run (.deliver 2 1 0), .run (.deliver 1 2 0),
    .run (.propose 2 [2]), .run (.deliver 2 1 0), .run (.deliver 2 1 0),
    .run (.deliver 1 2 0), .run (.deliver 1 2 0),
    .run (.win 0 6 {0, 1, 2}), .run (.lose 1 8 0), .run (.lose 2 8 0)]

/-- 0 has won: its COLLECTs are answered, after what is left of older epochs. -/
def bothAnswer : List Act :=
  [.run (.deliver 0 1 0), .run (.deliver 0 1 0), .run (.deliver 0 1 0),
    .run (.deliver 0 2 0), .run (.deliver 0 2 0), .run (.deliver 0 2 0)]

/-- If the LAST of 2 comes first, 1 is told of version 2 before anything else. -/
theorem none_left_behind_told : ∃ s₀ s₁ s, Gathered 3 0 8 {0, 1, 2} s₀ ∧
    step 3 5 s₀ (.run (.win 0 8 {0, 1, 2})) = some s₁ ∧
    Run.Reach (step 3 5) (Orderly 3 0 8 {0, 1, 2}) s₁ s ∧
    ∃ c ms, s.net 0 1 = c :: ms ∧ c.op = .commit ∧
      c.values.head?.map Prod.fst = some ((s.node 1).mon.lastCommitted + 1) ∧
      (handleCommit c (s.node 1).mon).ok = true := by
  have hrun : ((Run.exec (step 3 5) Run.anyAct oneVersionAhead fresh).bind fun s₀ : Cluster =>
      (step 3 5 s₀ (.run (.win 0 8 {0, 1, 2}))).bind fun s₁ : Cluster =>
      (Run.exec (step 3 5) (Orderly 3 0 8 {0, 1, 2})
        (bothAnswer ++ [.run (.deliver 2 0 0), .run (.deliver 1 0 0)]) s₁).map fun s : Cluster =>
      decide (Lost 3 0 8 {0, 1, 2} s₀ ∧ (s.node 1).up = true ∧
        (s.net 0 1).head?.map (fun c => (c.op, c.epoch)) = some (.commit, 8))) = some true := by
    decide +kernel
  obtain ⟨s₀, _, h⟩ := bind_eq_some_iff.mp hrun
  obtain ⟨s₁, hwin, h⟩ := bind_eq_some_iff.mp h
  obtain ⟨s, hs, hd⟩ := map_eq_some_iff.mp h
  obtain ⟨hlost, hup, hhead⟩ := of_decide_eq_true hd
  have hg := hlost.gathered
  have hr := Run.reach_of_exec hs
  obtain ⟨c, hc, heq⟩ := map_eq_some_iff.mp hhead
  obtain ⟨ms, hnet⟩ := head?_eq_some_iff.mp hc
  simp only [Prod.mk.injEq] at heq
  obtain ⟨hop, he⟩ := heq
  have hmain := none_left_behind 3 5 hg hwin hr (by decide) (by decide) hup hnet he
  exact ⟨s₀, s₁, s, hg, hwin, hr, c, ms, hnet, hop, (hmain.2 hop).1, (hmain.2 hop).2⟩

/-- If the LAST of 1 comes first, it is counted before the leader learns of
version 2, and nobody tells 1: the next BEGIN fails its assertion. -/
theorem left_behind : ∃ s₀ s₁ s, Run.Reach (step 3 5) Run.anyAct fresh s₀ ∧ Gathered 3 0 8 {0, 1, 2} s₀ ∧
    step 3 5 s₀ (.run (.win 0 8 {0, 1, 2})) = some s₁ ∧
    Run.Reach (step 3 5) (fun _ a => InEpoch 3 0 {0, 1, 2} a) s₁ s ∧ (s.node 1).up = true ∧
    ∃ c ms, s.net 0 1 = c :: ms ∧ c.epoch = 8 ∧ c.op = .begin ∧ c.pn = (s.node 1).mon.acceptedPn ∧
      c.lastCommitted = 2 ∧ (s.node 1).mon.lastCommitted = 1 ∧ (handleBegin 0 c (s.node 1).mon).ok = false := by
  have hrun : ((Run.exec (step 3 5) Run.anyAct oneVersionAhead fresh).bind fun s₀ : Cluster =>
      (step 3 5 s₀ (.run (.win 0 8 {0, 1, 2}))).bind fun s₁ : Cluster =>
      (Run.exec (step 3 5) (fun _ a => InEpoch 3 0 {0, 1, 2} a)
        (bothAnswer ++ [.run (.deliver 1 0 0), .run (.deliver 2 0 0), .run (.propose 0 [3]),
          .run (.deliver 0 1 0)]) s₁).map fun s : Cluster =>
      decide (Lost 3 0 8 {0, 1, 2} s₀ ∧ (s.node 1).up = true ∧
        (s.node 1).mon.lastCommitted = 1 ∧ (s.net 0 1).head?.map (fun c => (c.epoch, c.op, c.lastCommitted,
          decide (c.pn = (s.node 1).mon.acceptedPn), (handleBegin 0 c (s.node 1).mon).ok)) =
            some (8, .begin, 2, true, false))) = some true := by
    decide +kernel
  obtain ⟨s₀, hs₀, h⟩ := bind_eq_some_iff.mp hrun
  obtain ⟨s₁, hwin, h⟩ := bind_eq_some_iff.mp h
  obtain ⟨s, hs, hd⟩ := map_eq_some_iff.mp h
  obtain ⟨hlost, hup, hlc, hhead⟩ := of_decide_eq_true hd
  obtain ⟨c, hc, heq⟩ := map_eq_some_iff.mp hhead
  obtain ⟨ms, hnet⟩ := head?_eq_some_iff.mp hc
  simp only [Prod.mk.injEq, decide_eq_true_eq] at heq
  obtain ⟨he, hop, hclc, hpn, hok⟩ := heq
  exact ⟨s₀, s₁, s, Run.reach_of_exec hs₀, hlost.gathered, hwin, Run.reach_of_exec hs,
    hup, c, ms, hnet, he, hop, hpn, hclc, hlc, hok⟩

end runs

end Paxos
end Ceph
