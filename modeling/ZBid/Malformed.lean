import ZBid.Answers

/-!
# Malformed requests

In which reachable states, and for which bodies, a message with fields is carried out as it is
written or else refused. The well-formed half asks of the state what the handler needs: the NULLs
that an earlier malformed LOGIN has left, the arrays that are too short and the counters at INT_MAX
are all that can stand in its way.
-/
namespace ZBid

open CInt CString Runs

end ZBid
