import Candypool.Lib.RootSquare

/-! Primes modulo whose square `2` is a primitive root, as many as are needed for
no number up to `2^2000` to be divisible by all of them. -/
namespace Candypool.Prime
open Candypool.Lib

/-- Each prime with the prime divisors of its predecessor. -/
def rootPrimes : List (ℕ × List ℕ) :=
  [(3,[2]), (5,[2]), (11,[2,5]), (13,[2,3]), (19,[2,3]), (29,[2,7]), (37,[2,3]), (53,[2,13]),
   (59,[2,29]), (61,[2,3,5]), (67,[2,3,11]), (83,[2,41]), (101,[2,5]), (107,[2,53]),
   (131,[2,5,13]), (139,[2,3,23]), (149,[2,37]), (163,[2,3]), (173,[2,43]), (179,[2,89]),
   (181,[2,3,5]), (197,[2,7]), (211,[2,3,5,7]), (227,[2,113]), (269,[2,67]), (293,[2,73]),
   (317,[2,79]), (347,[2,173]), (349,[2,3,29]), (373,[2,3,31]), (379,[2,3,7]), (389,[2,97]),
   (419,[2,11,19]), (421,[2,3,5,7]), (443,[2,13,17]), (461,[2,5,23]), (467,[2,233]), (491,[2,5,7]),
   (509,[2,127]), (523,[2,3,29]), (541,[2,3,5]), (547,[2,3,7,13]), (557,[2,139]), (563,[2,281]),
   (587,[2,293]), (613,[2,3,17]), (619,[2,3,103]), (653,[2,163]), (659,[2,7,47]), (661,[2,3,5,11]),
   (677,[2,13]), (701,[2,5,7]), (709,[2,3,59]), (757,[2,3,7]), (773,[2,193]), (787,[2,3,131]),
   (797,[2,199]), (821,[2,5,41]), (827,[2,7,59]), (829,[2,3,23]), (853,[2,3,71]),
   (859,[2,3,11,13]), (877,[2,3,73]), (883,[2,3,7]), (907,[2,3,151]), (941,[2,5,47]),
   (947,[2,11,43]), (1019,[2,509]), (1061,[2,5,53]), (1091,[2,5,109]), (1109,[2,277]),
   (1117,[2,3,31]), (1123,[2,3,11,17]), (1171,[2,3,5,13]), (1187,[2,593]), (1213,[2,3,101]),
   (1229,[2,307]), (1237,[2,3,103]), (1259,[2,17,37]), (1277,[2,11,29]), (1283,[2,641]),
   (1291,[2,3,5,43]), (1301,[2,5,13]), (1307,[2,653]), (1373,[2,7]), (1381,[2,3,5,23]),
   (1427,[2,23,31]), (1451,[2,5,29]), (1453,[2,3,11]), (1483,[2,3,13,19]), (1493,[2,373]),
   (1499,[2,7,107]), (1523,[2,761]), (1531,[2,3,5,17]), (1549,[2,3,43]), (1571,[2,5,157]),
   (1619,[2,809]), (1621,[2,3,5]), (1637,[2,409]), (1667,[2,7,17]), (1669,[2,3,139]),
   (1693,[2,3,47]), (1733,[2,433]), (1741,[2,3,5,29]), (1747,[2,3,97]), (1787,[2,19,47]),
   (1861,[2,3,5,31]), (1867,[2,3,311]), (1877,[2,7,67]), (1901,[2,5,19]), (1907,[2,953]),
   (1931,[2,5,193]), (1949,[2,487]), (1973,[2,17,29]), (1979,[2,23,43]), (1987,[2,3,331]),
   (1997,[2,499]), (2027,[2,1013]), (2029,[2,3,13]), (2053,[2,3,19]), (2069,[2,11,47]),
   (2083,[2,3,347]), (2099,[2,1049]), (2131,[2,3,5,71]), (2141,[2,5,107]), (2213,[2,7,79]),
   (2221,[2,3,5,37]), (2237,[2,13,43]), (2243,[2,19,59]), (2267,[2,11,103]), (2269,[2,3,7]),
   (2293,[2,3,191]), (2309,[2,577]), (2333,[2,11,53]), (2339,[2,7,167]), (2357,[2,19,31]),
   (2371,[2,3,5,79]), (2389,[2,3,199]), (2437,[2,3,7,29]), (2459,[2,1229]), (2467,[2,3,137]),
   (2477,[2,619]), (2531,[2,5,11,23]), (2539,[2,3,47]), (2549,[2,7,13]), (2557,[2,3,71]),
   (2579,[2,1289]), (2621,[2,5,131]), (2659,[2,3,443]), (2677,[2,3,223]), (2683,[2,3,149]),
   (2693,[2,673]), (2699,[2,19,71]), (2707,[2,3,11,41]), (2741,[2,5,137]), (2789,[2,17,41]),
   (2797,[2,3,233]), (2803,[2,3,467]), (2819,[2,1409]), (2837,[2,709]), (2843,[2,7,29]),
   (2851,[2,3,5,19]), (2861,[2,5,11,13]), (2909,[2,727]), (2939,[2,13,113]), (2957,[2,739]),
   (2963,[2,1481]), (3011,[2,5,7,43]), (3019,[2,3,503]), (3037,[2,3,11,23]), (3067,[2,3,7,73]),
   (3083,[2,23,67]), (3187,[2,3,59]), (3203,[2,1601]), (3253,[2,3,271]), (3299,[2,17,97]),
   (3307,[2,3,19,29]), (3323,[2,11,151]), (3347,[2,7,239]), (3371,[2,5,337]), (3413,[2,853]),
   (3461,[2,5,173]), (3467,[2,1733]), (3469,[2,3,17]), (3491,[2,5,349]), (3499,[2,3,11,53]),
   (3517,[2,3,293]), (3533,[2,883]), (3539,[2,29,61]), (3547,[2,3,197]), (3557,[2,7,127]),
   (3571,[2,3,5,7,17]), (3581,[2,5,179]), (3613,[2,3,7,43]), (3637,[2,3,101]), (3643,[2,3,607]),
   (3659,[2,31,59]), (3677,[2,919]), (3691,[2,3,5,41])]

theorem rootPrimes_certified : rootPrimes.all (fun c => rootCert 2 44 c.1 c.2) = true := by
  decide +kernel

theorem rootPrimes_nodup : (rootPrimes.map Prod.fst).Nodup := by
  have hchain : (rootPrimes.map Prod.fst).IsChain (· < ·) := by decide +kernel
  exact (List.isChain_iff_pairwise.mp hchain).imp (fun h => h.ne)

theorem rootPrimes_prod : 2^2000 < (rootPrimes.map Prod.fst).prod := by decide +kernel

theorem rootPrimes_bound : rootPrimes.all (fun c => c.1*(c.1-1) < 2^24) = true := by
  decide +kernel

end Candypool.Prime
