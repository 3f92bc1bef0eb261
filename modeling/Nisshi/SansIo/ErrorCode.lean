import Mathlib.Order.Defs.LinearOrder

namespace Nisshi.SansIo

/-- The Kafka error codes that the modelled functions answer. -/
inductive ErrorCode where
  | none
  | unknownServerError
  | unknownProducerId
  | invalidProducerEpoch
  | invalidProducerIdMapping
  | producerFenced
  | outOfOrderSequenceNumber
  | duplicateSequenceNumber
  | concurrentTransactions
  | transactionAbortable
  | transactionalIdNotFound
  | invalidTxnState
  | unknownTopicOrPartition
  | offsetOutOfRange
  | kafkaStorageError
  | unknownMemberId
  | memberIdRequired
  | fencedInstanceId
  | illegalGeneration
  | rebalanceInProgress
  | inconsistentGroupProtocol
  | invalidSessionTimeout
  | invalidRequest
  | unsupportedVersion
  | unsupportedSaslMechanism
  | illegalSaslState
  | saslAuthenticationFailed
  | corruptMessage
  | invalidRecord
  | messageTooLarge
  | invalidTimestamp
  | invalidRequiredAcks
  | invalidConfig
  deriving DecidableEq

end Nisshi.SansIo
