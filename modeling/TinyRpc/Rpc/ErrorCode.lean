import TinyRpc.TcpBuffer

/-!
# Error codes

`error_code.h`: the prefix 1000 pasted in front of four digits.
-/

namespace TinyRpc

abbrev ErrorCode := BitVec 32

def ERROR_PEER_CLOSE : ErrorCode := 10000000
def ERROR_FAILED_CONNECT : ErrorCode := 10000001
def ERROR_FAILED_DESERIALIZE : ErrorCode := 10000003
def ERROR_FAILED_SERIALIZE : ErrorCode := 10000004
def ERROR_RPC_CALL_TIMEOUT : ErrorCode := 10000007
def ERROR_SERVICE_NOT_FOUND : ErrorCode := 10000008
def ERROR_METHOD_NOT_FOUND : ErrorCode := 10000009
def ERROR_PARSE_SERVICE_NAME : ErrorCode := 10000010
def ERROR_RPC_CHANNEL_INIT : ErrorCode := 10000011

end TinyRpc
